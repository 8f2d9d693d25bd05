import Mathlib.Algebra.Ring.Nat
import Mathlib.Logic.Function.Basic

/-! A GICv2 interrupt controller as one processor sees it, and a processor's generic timer. -/

/-- The control registers of the distributor and of the processor's interface, what is set of each
interrupt, the priority mask, and the interrupts in service. -/
structure Gic where
  forwards : BitVec 32
  signals : BitVec 32
  enabled : Nat → Bool
  group : Nat → Nat
  priority : Nat → Nat
  mask : Nat
  active : Nat → Bool

namespace Gic

/-- Interrupt `n` would be signalled; a lower priority is more urgent. -/
structure Asks (g : Gic) (waiting : Nat → Bool) (n : Nat) : Prop where
  valid : n < 1020
  enabled : g.enabled n = true
  waits : waiting n = true
  idle : g.active n = false
  forwarded : g.forwards.getLsbD (g.group n) = true
  signalled : g.signals.getLsbD (g.group n) = true
  unmasked : g.priority n < g.mask
  preempts : ∀ m, g.active m = true → g.priority n < g.priority m

structure Highest (g : Gic) (waiting : Nat → Bool) (n : Nat) : Prop extends Asks g waiting n where
  highest : ∀ m, g.Asks waiting m → g.priority n ≤ g.priority m

def intid (value : BitVec 32) : Nat := (value &&& 0x3FF).toNat

/-- What a read of the acknowledge register gives, with the controller after it. An interrupt of
group 1 is acknowledged only where bit 2 of the interface's control register says so. -/
inductive Acknowledge (g : Gic) (waiting : Nat → Bool) : BitVec 32 → Gic → Prop
  | take {n : Nat} {value : BitVec 32} : g.Highest waiting n →
      g.group n = 0 ∨ g.signals.getLsbD 2 = true → intid value = n →
      Acknowledge g waiting value { g with active := Function.update g.active n true }
  | grouped {n : Nat} : g.Highest waiting n → g.group n ≠ 0 → g.signals.getLsbD 2 = false →
      Acknowledge g waiting 0x3FE g
  | spurious : (∀ n, ¬ g.Asks waiting n) → Acknowledge g waiting 0x3FF g

def finish (g : Gic) (value : BitVec 32) : Gic :=
  { g with active := Function.update g.active (intid value) false }

variable {g g' : Gic} {waiting : Nat → Bool} {value : BitVec 32}

theorem Acknowledge.active (h : g.Acknowledge waiting value g') {n : Nat}
    (hn : g'.active n = true) : g.active n = true ∨ value ≠ 0x3FF ∧ intid value = n := by
  cases h with
  | @take k _ hhighest _ hvalue =>
    by_cases heq : n = k
    · refine .inr ⟨?_, hvalue.trans heq.symm⟩
      rintro rfl
      have hvalid := hhighest.valid
      rw [← hvalue] at hvalid
      exact absurd hvalid (by decide)
    · exact .inl ((Function.update_of_ne heq _ _).symm.trans hn)
  | grouped | spurious => exact .inl hn

theorem Acknowledge.waits (h : g.Acknowledge waiting value g') (hvalue : intid value < 1020) :
    waiting (intid value) = true := by
  cases h with
  | take hhighest _ heq => exact heq ▸ hhighest.waits
  | grouped | spurious => exact absurd hvalue (by decide)

theorem Acknowledge.eq (h : g.Acknowledge waiting value g') :
    g' = { g with active := g'.active } := by
  cases h <;> rfl

end Gic

/-- A timer that fires when `count`, which does not wrap in the lifetime of a machine, has reached
`deadline`. -/
structure GenericTimer where
  count : Nat
  deadline : Int
  control : BitVec 64

namespace GenericTimer

variable (t : GenericTimer)

def fires : Bool := t.control.getLsbD 0 && !t.control.getLsbD 1 && decide (t.deadline ≤ t.count)

/-- The value is a signed distance of 32 bits from the count. -/
def setValue (v : BitVec 64) : GenericTimer :=
  { t with deadline := t.count + (v.setWidth 32).toInt }

def setControl (v : BitVec 64) : GenericTimer := { t with control := v }

variable {t}

theorem deadline_le_of_fires (h : t.fires = true) : t.deadline ≤ t.count := by
  rw [fires, Bool.and_eq_true, decide_eq_true_eq] at h
  exact h.2

theorem setValue_deadline {v : BitVec 64} (h : v.toNat < 2 ^ 31) :
    (t.setValue v).deadline = t.count + v.toNat := by
  rw [setValue, BitVec.toInt_eq_toNat_of_lt]
  · rw [BitVec.toNat_setWidth, Nat.mod_eq_of_lt (by omega)]
  · rw [BitVec.toNat_setWidth, Nat.mod_eq_of_lt (by omega)]
    omega

end GenericTimer
