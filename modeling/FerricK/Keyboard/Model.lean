namespace FerricK

inductive Key
  | char (c : Char)
  | enter
  | tab
  | backspace
  | escape
  | up
  | down
  | left
  | right
  | pageUp
  | pageDown
  | home
  | end
  | insert
  | delete
  | leftShift
  | rightShift
  | leftControl
  | rightControl
  | leftAlt
  | rightAlt
  | capsLock
  | f (n : UInt8)
  | unknown (make : UInt8)
  deriving DecidableEq

inductive KeyEvent
  | press (key : Key)
  | release (key : Key)
  deriving DecidableEq

def Key.isChar : Key → Bool
  | .char _ => true
  | _ => false

def KeyEvent.key : KeyEvent → Key
  | press key | release key => key

def isAsciiLowercase (c : Char) : Bool := 'a' ≤ c && c ≤ 'z'

def isAsciiGraphic (c : Char) : Bool := '!' ≤ c && c ≤ '~'

def isPrintable (c : Char) : Bool := isAsciiGraphic c || c = ' '

structure KeyboardModel where
  shifted : Bool
  caps : Bool
  deriving DecidableEq

namespace KeyboardModel

def new : KeyboardModel where
  shifted := false
  caps := false

def pressShift (m : KeyboardModel) : KeyboardModel := { m with shifted := true }
def releaseShift (m : KeyboardModel) : KeyboardModel := { m with shifted := false }
def toggleShift (m : KeyboardModel) : KeyboardModel := { m with shifted := !m.shifted }
def toggleCaps (m : KeyboardModel) : KeyboardModel := { m with caps := !m.caps }

def encode (m : KeyboardModel) (low high : Char) : Char :=
  if isAsciiLowercase low then if m.caps ^^ m.shifted then high else low
  else if isAsciiGraphic low && m.shifted then high
  else low

theorem encode_self (m : KeyboardModel) (c : Char) : m.encode c c = c := by
  unfold encode
  repeat' split
  all_goals rfl

theorem encode_one (m : KeyboardModel) : m.encode '1' '!' = if m.shifted then '!' else '1' := by
  have hlower : isAsciiLowercase '1' = false := by decide
  have hgraphic : isAsciiGraphic '1' = true := by decide
  simp [encode, hlower, hgraphic]

end KeyboardModel

end FerricK
