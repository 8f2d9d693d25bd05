import Mathlib.Data.Nat.Bitwise
import Mathlib.Data.Set.Basic
import Mathlib.Tactic.Common

namespace Bits

structure Field where
  shift : Nat
  size : Nat
  deriving DecidableEq

namespace Field

def bits (f : Field) : Set Nat := {i | f.shift ≤ i ∧ i < f.shift + f.size}

def get (f : Field) (word : Nat) : Nat := word / 2 ^ f.shift % 2 ^ f.size

def put (f : Field) (v : Nat) : Nat := v * 2 ^ f.shift

def mask (f : Field) : Nat := f.put (2 ^ f.size - 1)

def Apart (f g : Field) : Prop := f.shift + f.size ≤ g.shift ∨ g.shift + g.size ≤ f.shift

instance (f g : Field) : Decidable (f.Apart g) := inferInstanceAs (Decidable (_ ∨ _))

end Field

def pack : List (Field × Nat) → Nat
  | [] => 0
  | (f, v) :: l => f.put v ||| pack l

variable {f g : Field} {v w i n : Nat} {l : List (Field × Nat)}

namespace Field

theorem testBit_put (f : Field) (v i : Nat) :
    (f.put v).testBit i = (decide (f.shift ≤ i) && v.testBit (i - f.shift)) := by
  rw [put, Nat.testBit_mul_two_pow]

theorem testBit_get (f : Field) (w i : Nat) :
    (f.get w).testBit i = (decide (i < f.size) && w.testBit (f.shift + i)) := by
  rw [get, Nat.testBit_mod_two_pow, Nat.testBit_div_two_pow, Nat.add_comm]

theorem testBit_mask : f.mask.testBit i = true ↔ i ∈ f.bits := by
  rw [mask, testBit_put, Nat.testBit_two_pow_sub_one, Bool.and_eq_true, decide_eq_true_eq,
    decide_eq_true_eq]
  exact and_congr_right fun h => by omega

theorem mem_bits_of_put (hv : v < 2 ^ f.size) (h : (f.put v).testBit i = true) : i ∈ f.bits := by
  rw [testBit_put, Bool.and_eq_true, decide_eq_true_eq] at h
  obtain ⟨hle, hbit⟩ := h
  have hlt : i - f.shift < f.size := by
    by_contra hge
    have hlt := hv.trans_le (Nat.pow_le_pow_right (by omega) (not_lt.mp hge))
    rw [Nat.testBit_lt_two_pow hlt] at hbit
    exact absurd hbit (by decide)
  exact ⟨hle, by omega⟩

theorem put_lt (hv : v < 2 ^ f.size) (hn : f.shift + f.size ≤ n) : f.put v < 2 ^ n := by
  calc v * 2 ^ f.shift < 2 ^ f.size * 2 ^ f.shift :=
        Nat.mul_lt_mul_of_pos_right hv (Nat.two_pow_pos _)
    _ = 2 ^ (f.shift + f.size) := by rw [Nat.pow_add, Nat.mul_comm]
    _ ≤ 2 ^ n := Nat.pow_le_pow_right (by omega) hn

theorem get_put (hv : v < 2 ^ f.size) : f.get (f.put v) = v := by
  rw [get, put, Nat.mul_div_cancel _ (Nat.two_pow_pos _), Nat.mod_eq_of_lt hv]

theorem get_or (h : ∀ i ∈ f.bits, v.testBit i = false) (w : Nat) : f.get (v ||| w) = f.get w := by
  refine Nat.eq_of_testBit_eq fun i => ?_
  rw [testBit_get, testBit_get, Nat.testBit_or]
  by_cases hi : i < f.size
  · rw [h (f.shift + i) ⟨by omega, by omega⟩, Bool.false_or]
  · simp [hi]

theorem Apart.symm (h : f.Apart g) : g.Apart f := Or.symm h

theorem Apart.not_mem (h : f.Apart g) (hi : i ∈ f.bits) : i ∉ g.bits := by
  rintro ⟨hg₁, hg₂⟩
  obtain ⟨hf₁, hf₂⟩ := hi
  rcases h with h | h <;> omega

theorem apart_iff (hf : 0 < f.size) (hg : 0 < g.size) :
    f.Apart g ↔ ∀ i ∈ f.bits, i ∉ g.bits := by
  refine ⟨fun h i hi => h.not_mem hi, fun h => ?_⟩
  by_contra hmeet
  have hboth := h (max f.shift g.shift)
  simp only [Apart, bits, Set.mem_ofPred_eq] at hmeet hboth
  omega

theorem mask_and_eq_zero (hf : 0 < f.size) (hg : 0 < g.size) :
    f.mask &&& g.mask = 0 ↔ f.Apart g := by
  rw [apart_iff hf hg]
  constructor
  · intro h i hfi hgi
    have hbit := congrArg (·.testBit i) h
    simp only [Nat.testBit_and, testBit_mask.mpr hfi, testBit_mask.mpr hgi] at hbit
    simp at hbit
  · intro h
    refine Nat.eq_of_testBit_eq fun i => ?_
    rw [Nat.testBit_and, Nat.zero_testBit, Bool.and_eq_false_iff]
    by_cases hfi : i ∈ f.bits
    · exact .inr (Bool.eq_false_iff.mpr (testBit_mask.not.mpr (h i hfi)))
    · exact .inl (Bool.eq_false_iff.mpr (testBit_mask.not.mpr hfi))

end Field

def Fit (l : List (Field × Nat)) : Prop := ∀ e ∈ l, e.2 < 2 ^ e.1.size

theorem mem_bits_of_pack (hl : Fit l) (h : (pack l).testBit i = true) : ∃ e ∈ l, i ∈ e.1.bits := by
  induction l with
  | nil => simp [pack] at h
  | cons e l ih =>
    obtain ⟨he, hl⟩ := List.forall_mem_cons.mp hl
    rw [pack, Nat.testBit_or, Bool.or_eq_true] at h
    obtain hput | hrest := h
    · exact ⟨e, List.mem_cons_self, Field.mem_bits_of_put he hput⟩
    · obtain ⟨e', he', hi⟩ := ih hl hrest
      exact ⟨e', List.mem_cons_of_mem _ he', hi⟩

theorem pack_lt (hl : Fit l) (hn : ∀ e ∈ l, e.1.shift + e.1.size ≤ n) : pack l < 2 ^ n := by
  induction l with
  | nil => exact Nat.two_pow_pos n
  | cons e l ih =>
    obtain ⟨he, hl⟩ := List.forall_mem_cons.mp hl
    obtain ⟨hen, hn⟩ := List.forall_mem_cons.mp hn
    exact Nat.or_lt_two_pow (Field.put_lt he hen) (ih hl hn)

theorem get_pack (hl : Fit l) (hapart : l.Pairwise fun e e' => e.1.Apart e'.1) :
    ∀ e ∈ l, e.1.get (pack l) = e.2 := by
  induction l with
  | nil => simp
  | cons e l ih =>
    obtain ⟨he, hl⟩ := List.forall_mem_cons.mp hl
    obtain ⟨hfirst, hrest⟩ := List.pairwise_cons.mp hapart
    refine List.forall_mem_cons.mpr ⟨?_, fun e' he' => ?_⟩
    · rw [pack, Nat.lor_comm, Field.get_or, Field.get_put he]
      intro i hi
      refine Bool.eq_false_iff.mpr fun hbit => ?_
      obtain ⟨e', he', hi'⟩ := mem_bits_of_pack hl hbit
      exact (hfirst e' he').not_mem hi hi'
    · rw [pack, Field.get_or, ih hl hrest e' he']
      intro i hi
      refine Bool.eq_false_iff.mpr fun hbit => ?_
      exact (hfirst e' he').symm.not_mem hi (Field.mem_bits_of_put he hbit)

end Bits
