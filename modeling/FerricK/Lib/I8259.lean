import Mathlib.Data.List.Basic

/-! The 8259A interrupt controller, in the modes of a PC: single requests or levels, cascaded or
not, with the end of interrupt given by a command or automatic. -/

inductive I8259.Word
  | mask
  | icw2
  | icw3
  | icw4
  deriving DecidableEq

/-- What only commands and acknowledgements change; `lowest` is the line of lowest priority. -/
structure I8259.Control where
  isr : BitVec 8
  imr : BitVec 8
  icw1 : BitVec 8
  icw2 : BitVec 8
  icw3 : BitVec 8
  icw4 : BitVec 8
  next : I8259.Word
  lowest : Nat
  specialMask : Bool
  deriving DecidableEq

structure I8259 extends I8259.Control where
  lines : BitVec 8
  irr : BitVec 8
  deriving DecidableEq

namespace I8259

def bit (n : Nat) : BitVec 8 := BitVec.twoPow 8 n

def order (lowest : Nat) : List Nat := (List.range 8).map fun i => (lowest + 1 + i) % 8

namespace Control

variable (c : Control)

def highest : Option Nat := (order c.lowest).find? c.isr.getLsbD

def finish (n : Nat) : Control := { c with isr := c.isr &&& ~~~bit n }

/-- The operation command words: ends of interrupt and rotations, and the special mask mode. -/
def operate (v : BitVec 8) : Control :=
  if v.getLsbD 3 then
    if v.getLsbD 6 then { c with specialMask := v.getLsbD 5 } else c
  else
    let level := (v &&& 7).toNat
    match (v >>> 5).toNat with
    | 1 => (c.highest.map c.finish).getD c
    | 3 => c.finish level
    | 5 => (c.highest.map fun n => { c.finish n with lowest := n }).getD c
    | 6 => { c with lowest := level }
    | 7 => { c.finish level with lowest := level }
    | _ => c

/-- Bit 4 makes a command the first initialization word. -/
def command (v : BitVec 8) : Control :=
  if v.getLsbD 4 then
    { c with
      isr := 0
      imr := 0
      icw1 := v
      icw4 := if v.getLsbD 0 then c.icw4 else 0
      next := .icw2
      lowest := 7
      specialMask := false }
  else c.operate v

/-- A single controller takes no third word, and the first says whether there is a fourth. -/
def data (v : BitVec 8) : Control :=
  let last : Word := if c.icw1.getLsbD 0 then .icw4 else .mask
  match c.next with
  | .mask => { c with imr := v }
  | .icw2 => { c with icw2 := v, next := if c.icw1.getLsbD 1 then last else .icw3 }
  | .icw3 => { c with icw3 := v, next := last }
  | .icw4 => { c with icw4 := v, next := .mask }

/-- The lines whose service keeps `n` out come before it in the order. -/
def holds (n : Nat) : Bool := c.isr.getLsbD n && !(c.specialMask && c.imr.getLsbD n)

def vector (n : Nat) : BitVec 8 := (c.icw2 &&& 0xF8) ||| .ofNat 8 n

def serve (n : Nat) : Control := if c.icw4.getLsbD 1 then c else { c with isr := c.isr ||| bit n }

end Control

variable (p : I8259)

def requests (n : Nat) : Bool :=
  (if p.icw1.getLsbD 3 then p.lines else p.irr).getLsbD n && !p.imr.getLsbD n

def pending : Option Nat :=
  ((order p.lowest).takeWhile fun n => !p.toControl.holds n).find? p.requests

/-- A rising edge leaves a request, which the line has to hold up: it goes when the line falls. -/
def setLine (n : Nat) (level : Bool) : I8259 :=
  { p with
    lines := if level then p.lines ||| bit n else p.lines &&& ~~~bit n
    irr :=
      if level then (if p.lines.getLsbD n then p.irr else p.irr ||| bit n)
      else p.irr &&& ~~~bit n }

def command (v : BitVec 8) : I8259 :=
  { p with
    toControl := p.toControl.command v
    irr := if v.getLsbD 4 then 0 else p.irr }

def data (v : BitVec 8) : I8259 := { p with toControl := p.toControl.data v }

def take (n : Nat) : I8259 :=
  { p with
    toControl := p.toControl.serve n
    irr := p.irr &&& ~~~bit n }

/-- The vector that two cascaded controllers give, where the second has the lines that the third
word of the first names.  A controller that no longer asks for anything gives its last line, and
takes nothing into service. -/
def acknowledge (master slave : I8259) : BitVec 8 × I8259 × I8259 :=
  match master.pending with
  | none => (master.toControl.vector 7, master, slave)
  | some n =>
    if master.icw3.getLsbD n then
      match slave.pending with
      | some k => (slave.toControl.vector k, master.take n, slave.take k)
      | none => (slave.toControl.vector 7, master.take n, slave)
    else (master.toControl.vector n, master.take n, slave)

theorem Control.initialize (c : Control) {icw1 : BitVec 8} (hstart : icw1.getLsbD 4 = true)
    (hcascade : icw1.getLsbD 1 = false) (hfourth : icw1.getLsbD 0 = true)
    (icw2 icw3 icw4 imr : BitVec 8) :
    ((((c.command icw1).data icw2).data icw3).data icw4).data imr =
      ⟨0, imr, icw1, icw2, icw3, icw4, .mask, 7, false⟩ := by
  simp only [Control.command, Control.data, hstart, hcascade, hfourth, Bool.false_eq_true,
    if_true, if_false]

variable {p} {n k : Nat}

theorem getLsbD_bit (hk : k < 8) : (bit n).getLsbD k = decide (n = k) := by
  rw [bit, BitVec.getLsbD_twoPow]
  by_cases h : n = k
  · simp [h, hk]
  · simp [h]

theorem getLsbD_set {b : BitVec 8} (hk : k < 8) :
    (b ||| bit n).getLsbD k = (b.getLsbD k || decide (n = k)) := by
  rw [BitVec.getLsbD_or, getLsbD_bit hk]

theorem getLsbD_clear {b : BitVec 8} (hk : k < 8) :
    (b &&& ~~~bit n).getLsbD k = (b.getLsbD k && !decide (n = k)) := by
  rw [BitVec.getLsbD_and, BitVec.getLsbD_not, getLsbD_bit hk, decide_eq_true hk, Bool.true_and]

@[simp] theorem take_lines : (p.take n).lines = p.lines := rfl

theorem setLine_lines_self (hn : n < 8) (level : Bool) :
    (p.setLine n level).lines.getLsbD n = level := by
  rw [setLine]
  cases level with
  | true => simp [getLsbD_set hn]
  | false => simp [getLsbD_clear hn]

theorem setLine_lines_of_ne (hk : k < 8) (h : n ≠ k) (level : Bool) :
    (p.setLine n level).lines.getLsbD k = p.lines.getLsbD k := by
  rw [setLine]
  cases level with
  | true => simp [getLsbD_set hk, h]
  | false => simp [getLsbD_clear hk, h]

theorem setLine_irr_self (hn : n < 8) (level : Bool) :
    (p.setLine n level).irr.getLsbD n = (level && (p.irr.getLsbD n || !p.lines.getLsbD n)) := by
  rw [setLine]
  cases level with
  | true =>
    simp only [if_true, Bool.true_and]
    split
    case isTrue h => rw [h, Bool.not_true, Bool.or_false]
    case isFalse h => rw [getLsbD_set hn, decide_eq_true rfl, Bool.eq_false_iff.mpr h]; rfl
  | false => simp [getLsbD_clear hn]

theorem setLine_irr_of_ne (hk : k < 8) (h : n ≠ k) (level : Bool) :
    (p.setLine n level).irr.getLsbD k = p.irr.getLsbD k := by
  rw [setLine]
  cases level with
  | true =>
    simp only [if_true]
    split
    · rfl
    · rw [getLsbD_set hk, decide_eq_false h, Bool.or_false]
  | false => simp [getLsbD_clear hk, h]

theorem take_irr (hk : k < 8) : (p.take n).irr.getLsbD k = (p.irr.getLsbD k && !decide (n = k)) :=
  getLsbD_clear hk

theorem pending_of_masked (h : p.imr = 0xFF) : p.pending = none := by
  refine List.find?_eq_none.mpr fun n hn => ?_
  have hmem : n ∈ order p.lowest := (List.takeWhile_sublist _).subset hn
  obtain ⟨i, -, rfl⟩ := List.mem_map.mp hmem
  have hlt : (p.lowest + 1 + i) % 8 < 8 := Nat.mod_lt _ (by decide)
  have hmask : ∀ k < 8, (0xFF : BitVec 8).getLsbD k = true := by decide
  rw [requests, h, hmask _ hlt, Bool.not_true, Bool.and_false]
  exact Bool.false_ne_true

end I8259
