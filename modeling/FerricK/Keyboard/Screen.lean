import FerricK.Keyboard.Model
import Mathlib.Data.Int.Order.Basic
import Mathlib.Data.List.Basic
import Mathlib.Data.List.Induction
import Mathlib.Tactic.Common

/-! The loop of `run_keyboard`: the window's keys and callbacks, the drain of the physical keys, and
the tap that waits for the drain to end. -/

namespace FerricK

inductive ScreenKey
  | char (low high : Char)
  | del
  | caps
  | shift
  | space
  | enter
  deriving DecidableEq

inductive PendingKey
  | none
  | char (low high : Char)
  | space
  | backspace
  | enter
  deriving DecidableEq

namespace Screen

def keysX0 : Int := 30
def keysY0 : Int := 104
def keyW : Int := 38
def keyH : Int := 34
def keyPitchX : Int := 42
def keyPitchY : Int := 42
def gridRows : List Int := [13, 13, 11, 10]

def rowGlyphs : List (String × String) :=
  [("`1234567890-=", "~!@#$%^&*()_+"), ("qwertyuiop[]\\", "QWERTYUIOP\x7b\x7d|"),
    ("asdfghjkl;'", "ASDFGHJKL:\""), ("zxcvbnm,./", "ZXCVBNM<>?")]

def charKeys (row : Nat) : List ScreenKey :=
  let (low, high) := rowGlyphs.getD row ("", "")
  low.toList.zipWith .char high.toList

/-- A `HorizontalLayout` at x 30, its keys 34 high and 4 apart, each with its width. -/
structure HorizontalLayout where
  y : Int
  keys : List (Int × ScreenKey)

def layouts : List HorizontalLayout :=
  [⟨104, (charKeys 0).map (38, ·) ++ [(44, .del)]⟩, ⟨146, (charKeys 1).map (38, ·)⟩,
    ⟨188, (charKeys 2).map (38, ·)⟩, ⟨230, (charKeys 3).map (38, ·)⟩,
    ⟨272, [(80, .caps), (84, .shift), (214, .space), (86, .enter)]⟩]

def hitRow : List (Int × ScreenKey) → Int → Int → Option ScreenKey
  | [], _, _ => none
  | (width, key) :: keys, left, x =>
    if left ≤ x ∧ x < left + width then some key else hitRow keys (left + width + 4) x

/-- The key whose `TouchArea` is under a point. -/
def keyAt (x y : Int) : Option ScreenKey :=
  layouts.findSome? fun layout =>
    if layout.y ≤ y ∧ y < layout.y + 34 then hitRow layout.keys 30 x else none

/-- The key under the click that `click_selected` makes. -/
def selectedKey (selRow selCol : Int) : Option ScreenKey :=
  keyAt (keysX0 + selCol * keyPitchX + keyW / 2) (keysY0 + selRow * keyPitchY + keyH / 2)

def moveSelection (row col dr dc : Int) : Int × Int :=
  let targetRow := max 0 (min (row + dr) (gridRows.length - 1))
  let targetCol := max 0 (min (col + dc) (gridRows.getD targetRow.toNat 0 - 1))
  (targetRow, targetCol)

end Screen

/-- `state` and `pending` are the two shared cells; `shifted` and `capsOn` are the window's
properties, and `dispatched` the key events it was sent. -/
structure Screen where
  state : KeyboardModel
  pending : PendingKey
  selRow : Int
  selCol : Int
  shifted : Bool
  capsOn : Bool
  dispatched : List KeyEvent

namespace Screen

def start : Screen where
  state := .new
  pending := .none
  selRow := 0
  selCol := 0
  shifted := false
  capsOn := false
  dispatched := []

/-- `state.get().f()`: `KeyboardModel` is `Copy`, so `f` changes what `get` returned, the first of
the pair; the second is what the cell then holds. -/
def getThen (f : KeyboardModel → KeyboardModel) (cell : KeyboardModel) :
    KeyboardModel × KeyboardModel :=
  (f cell, cell)

def hasText : Key → Bool
  | .char c => isPrintable c
  | .f n => 1 ≤ n ∧ n ≤ 24
  | .unknown _ => false
  | _ => true

def dispatch (s : Screen) (event : KeyEvent) : Screen :=
  if hasText event.key then { s with dispatched := s.dispatched ++ [event] } else s

def tap (s : Screen) : ScreenKey → Screen
  | .char low high => { s with pending := .char low high }
  | .space => { s with pending := .space }
  | .del => { s with pending := .backspace }
  | .enter => { s with pending := .enter }
  | .shift => { s with state := (getThen .toggleShift s.state).2 }
  | .caps => { s with state := (getThen .toggleCaps s.state).2 }

def clickSelected (s : Screen) : Screen :=
  match selectedKey s.selRow s.selCol with
  | some key => s.tap key
  | none => s

def move (s : Screen) (dr dc : Int) : Screen :=
  let (row, col) := moveSelection s.selRow s.selCol dr dc
  { s with selRow := row, selCol := col }

/-- One turn of the drain; on Escape the function returns instead. -/
def key (s : Screen) : KeyEvent → Screen
  | .press .escape | .release .escape | .release .enter => s
  | .press .enter => s.clickSelected
  | .press .up => s.move (-1) 0
  | .press .down => s.move 1 0
  | .press .left => s.move 0 (-1)
  | .press .right => s.move 0 1
  | .release .up | .release .down | .release .left | .release .right => s
  | .press .leftShift =>
    { s with state := (getThen .pressShift s.state).2 }.dispatch (.press .leftShift)
  | .press .rightShift =>
    { s with state := (getThen .pressShift s.state).2 }.dispatch (.press .rightShift)
  | .release .leftShift =>
    { s with state := (getThen .releaseShift s.state).2 }.dispatch (.release .leftShift)
  | .release .rightShift =>
    { s with state := (getThen .releaseShift s.state).2 }.dispatch (.release .rightShift)
  | .press .capsLock =>
    { s with state := (getThen .toggleCaps s.state).2 }.dispatch (.press .capsLock)
  | .release .capsLock => s
  | .press (.char ch) => s.dispatch (.press (.char (s.state.encode ch ch)))
  | .release (.char _) => s
  | other => s.dispatch other

def dispatchPendingKey (s : Screen) : PendingKey → Screen
  | .char low high => s.dispatch (.press (.char (s.state.encode low high)))
  | .space => s.dispatch (.press (.char ' '))
  | .backspace => s.dispatch (.press .backspace)
  | .enter => s.dispatch (.press .enter)
  | .none => s

def applyState (s : Screen) : Screen :=
  { s with shifted := s.state.shifted, capsOn := s.state.caps }

def frame (s : Screen) : Screen :=
  ({ s with pending := .none }.dispatchPendingKey s.pending).applyState

theorem dispatched_dispatch (s : Screen) (event : KeyEvent) : (s.dispatch event).dispatched =
    if hasText event.key then s.dispatched ++ [event] else s.dispatched := by
  unfold dispatch
  split <;> rfl

end Screen

end FerricK
