import FerricK.Lib.Bytes
import FerricK.Lib.Rust

namespace FerricK.Heap

open Rust

/-- Memory by address; a `usize` is a number below `2 ^ 64`. -/
abbrev Mem := Nat → UInt8

def headerGap : Nat := 8
def headerSize : Nat := 24
def minBlock : Nat := headerSize * 2

/-- `core::alloc::Layout` with what `Layout::from_size_align` checks. -/
structure Layout where
  size : Nat
  align : Nat
  align_pow : ∃ k, align = 2 ^ k
  fits : size + (align - 1) < 2 ^ 63

inductive Field where | size | next | prev
  deriving DecidableEq

def Field.offset : Field → Nat
  | .size => 0
  | .next => 8
  | .prev => 16

/-- What every raw-pointer access checks in a debug build. -/
def deref (p : Nat) : Rust Unit := if p = 0 ∨ p % 8 ≠ 0 then .error .deref else .ok ()

def get (m : Mem) (p : Nat) (f : Field) : Rust Nat := do
  deref p
  return Bytes.loadWord m (p + f.offset)

def set (m : Mem) (p : Nat) (f : Field) (v : Nat) : Rust Mem := do
  deref p
  return Bytes.storeWord m (p + f.offset) v

def alignUp (value align : Nat) : Rust Nat := do
  let mask ← usub align 1
  let value ← uadd 64 value mask
  return value &&& unot 64 mask

/-- The fields of `Heap`, and the memory behind its pointers. -/
structure State where
  mem : Mem
  free : Nat
  start : Nat
  «end» : Nat

def init (s : State) (start size : Nat) : Rust (Bool × State) := do
  let start ← alignUp start 8
  match checkedAdd 64 start size with
  | none => return (false, s)
  | some e =>
    let e := e &&& unot 64 7
    let size ← usub e start
    if size < minBlock then
      return (false, s)
    let m ← set s.mem start .size size
    let m ← set m start .next 0
    let m ← set m start .prev 0
    return (true, ⟨m, start, start, e⟩)

def setNext (s : State) (p n : Nat) : Rust State :=
  if p ≠ 0 then do
    let m ← set s.mem p .next n
    return { s with mem := m }
  else return { s with free := n }

def setPrev (s : State) (n p : Nat) : Rust State :=
  if n ≠ 0 then do
    let m ← set s.mem n .prev p
    return { s with mem := m }
  else return s

def unlink (s : State) (node : Nat) : Rust State := do
  let s ← setNext s (← get s.mem node .prev) (← get s.mem node .next)
  setPrev s (← get s.mem node .next) (← get s.mem node .prev)

/-- The split branch of `alloc`: the tail takes over the list position of `current`. -/
def splitTail (s : State) (current tailAddr tailSize : Nat) : Rust State := do
  let m ← set s.mem tailAddr .size tailSize
  let m ← set m tailAddr .next (← get m current .next)
  let m ← set m tailAddr .prev (← get m current .prev)
  let s ← setNext { s with mem := m } (← get m current .prev) tailAddr
  let s ← setPrev s (← get s.mem current .next) tailAddr
  let m ← set s.mem current .size (← usub tailAddr current)
  return { s with mem := m }

def worthSplitting (blockEnd needEnd tail : Nat) : Rust Bool :=
  if minBlock ≤ tail then do
    let rest ← usub blockEnd (← alignUp needEnd 8)
    return decide (minBlock ≤ rest)
  else return false

/-- `if split { .. } else { .. }`: takes the front of `current`, or all of it, off the list. -/
def detach (s : State) (current blockEnd needEnd tail : Nat) : Rust State := do
  let split ← worthSplitting blockEnd needEnd tail
  if split then
    let tailAddr ← alignUp needEnd 8
    let tailSize ← usub blockEnd tailAddr
    splitTail s current tailAddr tailSize
  else unlink s current

def carve (s : State) (current blockSize payload needEnd : Nat) : Rust (Nat × State) := do
  let headPad ← usub payload (← uadd 64 current headerSize)
  let blockEnd ← uadd 64 current blockSize
  let tail ← usub blockEnd needEnd
  let s ← detach s current blockEnd needEnd tail
  let slot ← usub payload headerGap
  deref slot
  return (payload, { s with mem := Bytes.storeWord s.mem slot headPad })

def allocLoop (s : State) (size align : Nat) : Nat → Nat → Rust (Nat × State)
  | 0, _ => .error .fuel
  | fuel + 1, current =>
    if current = 0 then return (0, s)
    else do
      let blockSize ← get s.mem current .size
      let payload ← alignUp (← uadd 64 (← uadd 64 current headerSize) headerGap) align
      match checkedAdd 64 payload size with
      | none => allocLoop s size align fuel (← get s.mem current .next)
      | some needEnd =>
        if needEnd > (← uadd 64 current blockSize) then
          allocLoop s size align fuel (← get s.mem current .next)
        else carve s current blockSize payload needEnd

/-- A walk longer than the heap has bytes has met some node twice. -/
def State.fuel (s : State) : Nat := s.end - s.start + 1

/-- The address, `0` for null, and the state after the call. -/
def alloc (s : State) (layout : Layout) : Rust (Nat × State) :=
  allocLoop s (max layout.size 1) layout.align s.fuel s.free

/-- The walk of `dealloc`: the last free blocks found to end at `blockAddr` and to start
at `blockEnd`. -/
def neighbours (m : Mem) (blockAddr blockEnd : Nat) :
    Nat → Nat → Nat → Nat → Rust (Nat × Nat)
  | 0, _, _, _ => .error .fuel
  | fuel + 1, current, left, right =>
    if current = 0 then return (left, right)
    else do
      let nodeEnd ← uadd 64 current (← get m current .size)
      let left := if nodeEnd = blockAddr then current else left
      let right := if current = blockEnd then current else right
      neighbours m blockAddr blockEnd fuel (← get m current .next) left right

def grow (s : State) (p q : Nat) : Rust State := do
  let size ← uadd 64 (← get s.mem p .size) (← get s.mem q .size)
  let m ← set s.mem p .size size
  return { s with mem := m }

def prepend (s : State) (block : Nat) : Rust State := do
  let m ← set s.mem block .next s.free
  let m ← set m block .prev 0
  let s ← setPrev { s with mem := m } s.free block
  return { s with free := block }

def mergeRight (s : State) (block right : Nat) : Rust State :=
  if right ≠ 0 then do
    let s ← grow s block right
    unlink s right
  else return s

def mergeLeft (s : State) (block left : Nat) : Rust State :=
  if left ≠ 0 then grow s left block else prepend s block

/-- The header address the slot below `payload` leads to. -/
def blockAddr (s : State) (payload : Nat) : Rust Nat := do
  let slot ← usub payload headerGap
  deref slot
  usub (← usub payload headerSize) (Bytes.loadWord s.mem slot)

/-- `dealloc` from its read of the block's size on. -/
def giveBack (s : State) (block : Nat) : Rust State := do
  let blockEnd ← uadd 64 block (← get s.mem block .size)
  let (left, right) ← neighbours s.mem block blockEnd s.fuel s.free 0 0
  let s ← mergeRight s block right
  mergeLeft s block left

/-- Takes no layout: `dealloc` ignores its own. -/
def dealloc (s : State) (payload : Nat) : Rust State :=
  if payload = 0 then pure s
  else do
    let low ← uadd 64 s.start headerSize
    if payload < low ∨ payload ≥ s.end then pure s
    else do
      let block ← blockAddr s payload
      if block < s.start ∨ block ≥ s.end then pure s
      else giveBack s block

end FerricK.Heap
