import FerricK.Lib.Rust
import Mathlib.Algebra.Order.Group.Nat
import Mathlib.Tactic.Ring

namespace Align

def up (v a : Nat) : Nat := (v + (a - 1)) / a * a

variable {v a b n : Nat}

theorem dvd_up (v a : Nat) : a ∣ up v a := Dvd.intro_left _ rfl

theorem le_up (ha : 0 < a) : v ≤ up v a := by
  have h := Nat.div_add_mod (v + (a - 1)) a
  have hlt := Nat.mod_lt (v + (a - 1)) ha
  rw [up, Nat.mul_comm]
  omega

theorem up_lt (ha : 0 < a) : up v a < v + a := by
  have h : up v a ≤ v + (a - 1) := Nat.div_mul_le_self _ _
  omega

theorem up_le (ha : 0 < a) (hn : a ∣ n) (hv : v ≤ n) : up v a ≤ n := by
  obtain ⟨q, rfl⟩ := hn
  have hlt := up_lt (v := v) ha
  obtain ⟨p, hp⟩ := dvd_up v a
  rw [hp] at hlt ⊢
  have hpq : a * p < a * (q + 1) := by
    rw [Nat.mul_add, Nat.mul_one]
    omega
  exact Nat.mul_le_mul_left a (Nat.lt_succ_iff.mp (Nat.lt_of_mul_lt_mul_left hpq))

theorem up_of_dvd (ha : 0 < a) (hv : a ∣ v) : up v a = v :=
  Nat.le_antisymm (up_le ha hv le_rfl) (le_up ha)

theorem and_unot_mask {x w k : Nat} (hx : x < 2 ^ w) (hk : k ≤ w) :
    x &&& Rust.unot w (2 ^ k - 1) = x / 2 ^ k * 2 ^ k := by
  have hmask : Rust.unot w (2 ^ k - 1) = (2 ^ (w - k) - 1) <<< k := by
    have hpow : 2 ^ w = 2 ^ (w - k) * 2 ^ k := by rw [← Nat.pow_add, Nat.sub_add_cancel hk]
    have h₁ := Nat.one_le_two_pow (n := k)
    rw [Rust.unot, Nat.shiftLeft_eq, Nat.sub_mul, ← hpow]
    omega
  rw [hmask, ← Nat.shiftLeft_eq, ← Nat.shiftRight_eq_div_pow]
  apply Nat.eq_of_testBit_eq
  intro i
  simp only [Nat.testBit_and, Nat.testBit_shiftLeft, Nat.testBit_shiftRight,
    Nat.testBit_two_pow_sub_one]
  rcases Nat.lt_or_ge i k with hik | hki
  · simp [Nat.not_le.mpr hik]
  · rw [Nat.add_sub_cancel' hki]
    rcases Nat.lt_or_ge i w with hiw | hwi
    · have : i - k < w - k := by omega
      simp [hki, this]
    · have : x < 2 ^ i := hx.trans_le (Nat.pow_le_pow_right (by omega) hwi)
      simp [Nat.testBit_lt_two_pow this]

end Align
