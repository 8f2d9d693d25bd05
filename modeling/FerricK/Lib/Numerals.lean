import Mathlib.Algebra.Ring.Nat
import Mathlib.Data.List.Basic
import Mathlib.Tactic.Common

namespace Numeral

def digit (c : Char) : Option Nat :=
  if '0' ≤ c ∧ c ≤ '9' then some (c.toNat - '0'.toNat)
  else if 'a' ≤ c ∧ c ≤ 'f' then some (c.toNat - 'a'.toNat + 10)
  else none

def next (b n : Nat) (c : Char) : Option Nat :=
  ((digit c).filter (· < b)).map (b * n + ·)

def read (b : Nat) (text : List Char) : Option Nat :=
  if text = [] then none else text.foldlM (next b) 0

variable {b n w : Nat} {c : Char}

theorem digit_digitChar : ∀ d < 16, digit d.digitChar = some d := by
  decide

theorem next_digitChar (hb : b ≤ 16) {d : Nat} (hd : d < b) :
    next b n d.digitChar = some (b * n + d) := by
  rw [next, digit_digitChar d (by omega), Option.filter_some, if_pos (decide_eq_true hd)]
  rfl

theorem foldlM_toDigits (hpos : 1 < b) (hb : b ≤ 16) (n : Nat) :
    (Nat.toDigits b n).foldlM (next b) 0 = some n := by
  induction n using Nat.base_induction b hpos with
  | single d hd =>
    rw [Nat.toDigits_of_lt_base hd, List.foldlM_cons, next_digitChar hb hd, Nat.mul_zero,
      Nat.zero_add]
    rfl
  | digit m d hd hm ih =>
    rw [← Nat.toDigits_append_toDigits hpos hm hd, List.foldlM_append, ih,
      Nat.toDigits_of_lt_base hd, Option.bind_eq_bind, Option.bind_some, List.foldlM_cons,
      next_digitChar hb hd]
    rfl

theorem read_leftpad_toDigits (hpos : 1 < b) (hb : b ≤ 16) (w n : Nat) :
    read b (List.leftpad w '0' (Nat.toDigits b n)) = some n := by
  have hzeros : ∀ k, (List.replicate k '0').foldlM (next b) 0 = some 0 := by
    intro k
    induction k with
    | zero => rfl
    | succ k ih =>
      have hzero : next b 0 '0' = some 0 := next_digitChar (d := 0) hb (by omega)
      rw [List.replicate_succ, List.foldlM_cons, hzero, Option.bind_eq_bind, Option.bind_some, ih]
  rw [read, if_neg (by simp [List.leftpad]), List.leftpad, List.foldlM_append, hzeros,
    Option.bind_eq_bind, Option.bind_some, foldlM_toDigits hpos hb]

theorem length_leftpad_toDigits (hpos : 1 < b) (hw : 0 < w) (hn : n < b ^ w) :
    (List.leftpad w c (Nat.toDigits b n)).length = w := by
  rw [List.length_leftpad]
  exact Nat.max_eq_left ((Nat.length_toDigits_le_iff hpos hw).mpr hn)

theorem isSome_digit_of_mem_toDigits (hpos : 1 < b) (hb : b ≤ 16)
    (h : c ∈ Nat.toDigits b n) : (digit c).isSome := by
  induction n using Nat.base_induction b hpos with
  | single d hd =>
    rw [Nat.toDigits_of_lt_base hd, List.mem_singleton] at h
    rw [h, digit_digitChar d (by omega)]
    rfl
  | digit m d hd hm ih =>
    rw [← Nat.toDigits_append_toDigits hpos hm hd, Nat.toDigits_of_lt_base hd, List.mem_append,
      List.mem_singleton] at h
    rcases h with h | rfl
    · exact ih h
    · rw [digit_digitChar d (by omega)]
      rfl

theorem isSome_digit_of_mem_leftpad (hpos : 1 < b) (hb : b ≤ 16)
    (h : c ∈ List.leftpad w '0' (Nat.toDigits b n)) : (digit c).isSome := by
  rcases List.mem_append.mp h with h | h
  · rw [List.eq_of_mem_replicate h]
    rfl
  · exact isSome_digit_of_mem_toDigits hpos hb h

theorem val_le_of_isSome_digit (h : (digit c).isSome) : c.val ≤ 127 := by
  unfold digit at h
  split at h
  · rename_i hc
    exact UInt32.le_trans hc.2 (by decide)
  · split at h
    · rename_i hc
      exact UInt32.le_trans hc.2 (by decide)
    · cases h

end Numeral
