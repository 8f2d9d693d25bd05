import Mathlib.Logic.Basic

/-- What software sets of a counter. `low` is a low byte whose high byte has still to come, and
`reload` is nothing until a whole count has come. -/
structure I8254.Control where
  access : BitVec 2
  mode : BitVec 3
  bcd : Bool
  low : Option (BitVec 8)
  reload : Option Nat
  deriving DecidableEq

/-- `phase` counts the clocks of a period, from the clock that loads the count on. -/
structure I8254 extends I8254.Control where
  phase : Option Nat
  out : Bool
  deriving DecidableEq

namespace I8254

/-- A count of 0 is the largest there is. -/
def Control.count (c : Control) (v : BitVec 16) : Nat :=
  if c.bcd then
    let digits := (v.extractLsb' 12 4).toNat * 1000 + (v.extractLsb' 8 4).toNat * 100 +
      (v.extractLsb' 4 4).toNat * 10 + (v.extractLsb' 0 4).toNat
    if digits = 0 then 10000 else digits
  else if v.toNat = 0 then 65536 else v.toNat

/-- A control word with access 0 only latches the count for a read. -/
def Control.command (c : Control) (v : BitVec 8) : Control :=
  if v.extractLsb' 4 2 = 0 then c
  else
    { access := v.extractLsb' 4 2
      mode := v.extractLsb' 1 3
      bcd := v.getLsbD 0
      low := none
      reload := none }

/-- Access 1 is to the low byte, 2 to the high one, 3 to both in turn. -/
def Control.data (c : Control) (v : BitVec 8) : Control :=
  if c.access = 1 then { c with reload := some (c.count (0#8 ++ v)) }
  else if c.access = 2 then { c with reload := some (c.count (v ++ 0#8)) }
  else
    match c.low with
    | none => { c with low := some v }
    | some low => { c with low := none, reload := some (c.count (v ++ low)) }

def Control.Square (c : Control) : Prop := c.mode.extractLsb' 0 2 = 3

instance (c : Control) : Decidable c.Square := inferInstanceAs (Decidable (_ = _))

variable (c : I8254)

/-- A control word stops the counter; in every mode but 0 its output then rests high. -/
def command (v : BitVec 8) : I8254 :=
  if v.extractLsb' 4 2 = 0 then c
  else
    { toControl := c.toControl.command v
      phase := none
      out := v.extractLsb' 1 3 ≠ 0 }

def data (v : BitVec 8) : I8254 := { c with toControl := c.toControl.data v }

def half (n : Nat) : Nat := (n + 1) / 2

def phaseNext (n : Nat) : Option Nat → Nat
  | none => 0
  | some k => (k + 1) % n

def clock : I8254 :=
  match c.reload with
  | none => c
  | some n =>
    { c with phase := some (phaseNext n c.phase), out := phaseNext n c.phase < half n }

@[simp] theorem clock_toControl : c.clock.toControl = c.toControl := by
  unfold clock
  split <;> rfl

structure At (n t : Nat) : Prop where
  reload : c.reload = some n
  phase : c.phase = if t = 0 then none else some ((t - 1) % n)
  out : c.out = (t = 0 || (t - 1) % n < half n)

def rises (n t : Nat) : Nat := (t - 1) / n

theorem Control.load (c : Control) {v : BitVec 8} (h : v.extractLsb' 4 2 = 3)
    (low high : BitVec 8) :
    ((c.command v).data low).data high =
      ⟨3, v.extractLsb' 1 3, v.getLsbD 0, none, some ((c.command v).count (high ++ low))⟩ := by
  simp [Control.command, Control.data, Control.count, h]

variable {c} {n t : Nat}

theorem At.phaseNext (h : c.At n t) : phaseNext n c.phase = t % n := by
  rw [h.phase]
  cases t with
  | zero => exact (Nat.zero_mod n).symm
  | succ t => exact Nat.mod_add_mod t n 1

theorem At.clock (h : c.At n t) : c.clock.At n (t + 1) := by
  have heq : c.clock = { c with phase := some (t % n), out := t % n < half n } := by
    rw [I8254.clock, h.reload, ← h.phaseNext]
  rw [heq]
  exact ⟨h.reload, rfl, rfl⟩

theorem mod_succ (hn : 2 ≤ n) (t : Nat) :
    (t + 1) % n = if t % n + 1 = n then 0 else t % n + 1 := by
  have hlt := Nat.mod_lt t (show 0 < n by omega)
  rw [Nat.add_mod_eq_ite, Nat.mod_eq_of_lt (show 1 < n by omega)]
  split <;> split <;> omega

theorem At.rises_clock (hn : 2 ≤ n) (h : c.At n t) :
    rises n (t + 1) = rises n t + (c.clock.out && !c.out).toNat := by
  have hpos : 0 < half n := by
    unfold half
    omega
  have hlt : half n < n := by
    unfold half
    omega
  rw [h.clock.out, h.out, rises, rises, Nat.add_sub_cancel]
  cases t with
  | zero => simp
  | succ t =>
    simp only [Nat.add_sub_cancel, Nat.succ_div, Nat.dvd_iff_mod_eq_zero, mod_succ hn]
    by_cases hlast : t % n + 1 = n
    · -- the output was in its low half, and comes back to the start of the high one
      have hlow : ¬ t % n < half n := by omega
      simp [hlast, hlow, hpos]
    · have hkept : t % n + 1 < half n → t % n < half n := by omega
      simpa [hlast] using hkept

end I8254
