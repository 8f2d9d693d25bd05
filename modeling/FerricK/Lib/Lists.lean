import Mathlib.Data.List.Basic
import Mathlib.Tactic.Common

namespace Lists

def upTo {α : Type*} (p : α → Bool) : List α → List α
  | [] => []
  | a :: l => a :: if p a then [] else upTo p l

variable {α β : Type*} {f : α → List β} {l : List α} {n i j : Nat}

theorem map_upTo (g : α → β) (p : β → Bool) (l : List α) :
    (upTo (fun a => p (g a)) l).map g = upTo p (l.map g) := by
  induction l with
  | nil => rfl
  | cons a l ih =>
    rw [upTo, List.map_cons, List.map_cons, upTo]
    cases p (g a) with
    | true => rfl
    | false => rw [← ih]; rfl

theorem length_flatMap (hf : ∀ a ∈ l, (f a).length = n) : (l.flatMap f).length = l.length * n := by
  rw [List.length_flatMap, List.map_congr_left hf, List.map_const', List.sum_replicate_nat]

theorem getElem?_flatMap (hf : ∀ a ∈ l, (f a).length = n) (hj : j < n) :
    (l.flatMap f)[i * n + j]? = l[i]?.bind fun a => (f a)[j]? := by
  induction l generalizing i with
  | nil => simp
  | cons a l ih =>
    obtain ⟨ha, hl⟩ := List.forall_mem_cons.mp hf
    rw [List.flatMap_cons]
    cases i with
    | zero =>
      rw [Nat.zero_mul, Nat.zero_add, List.getElem?_append_left (by omega)]
      rfl
    | succ i =>
      have hskip : (i + 1) * n + j - n = i * n + j := by rw [Nat.succ_mul]; omega
      rw [List.getElem?_append_right (by rw [Nat.succ_mul]; omega), ha, hskip, ih hl]
      rfl

theorem findIdx?_or_iff (p q : α → Bool) (l : List α) :
    l.findIdx? (fun a => p a || q a) = l.findIdx? p ↔
      ∀ i a, l[i]? = some a → q a = true → ∃ b ∈ l.take (i + 1), p b = true := by
  induction l with
  | nil => simp
  | cons a l ih =>
    rw [List.findIdx?_cons, List.findIdx?_cons]
    by_cases hp : p a = true
    · rw [if_pos (by simp [hp]), if_pos hp]
      exact ⟨fun _ i b _ _ => ⟨a, by simp, hp⟩, fun _ => rfl⟩
    by_cases hq : q a = true
    · rw [if_pos (by simp [hq]), if_neg hp]
      constructor
      · intro h
        obtain ⟨_, -, hsucc⟩ := Option.map_eq_some_iff.mp h.symm
        exact nomatch hsucc
      · intro h
        obtain ⟨b, hb, hpb⟩ := h 0 a rfl hq
        simp only [List.take_succ_cons, List.take_zero, List.mem_singleton] at hb
        exact absurd (hb ▸ hpb) hp
    · rw [if_neg (by simp [hp, hq]), if_neg hp,
        (Option.map_injective fun _ _ => Nat.succ.inj).eq_iff, ih]
      constructor
      · rintro h (_ | i) b hb hqb
        · cases hb
          exact absurd hqb hq
        · obtain ⟨d, hd, hpd⟩ := h i b hb hqb
          exact ⟨d, List.mem_cons_of_mem _ hd, hpd⟩
      · intro h i b hb hqb
        obtain ⟨d, hd, hpd⟩ := h (i + 1) b hb hqb
        obtain rfl | hd := List.mem_cons.mp hd
        · exact absurd hpd hp
        · exact ⟨d, hd, hpd⟩

theorem split_at_key (key : α → β) (huniq : ∀ l₁ b l₂, l = l₁ ++ b :: l₂ →
      ∀ c ∈ l₁ ++ l₂, key c ≠ key b) (k : β) :
    (∃ l₁ b l₂, l = l₁ ++ b :: l₂ ∧ key b = k ∧ ∀ c ∈ l₁ ++ l₂, key c ≠ k) ∨
      ∀ c ∈ l, key c ≠ k := by
  by_cases hb : ∃ b ∈ l, key b = k
  · obtain ⟨b, hmem, rfl⟩ := hb
    obtain ⟨l₁, l₂, hl⟩ := List.mem_iff_append.mp hmem
    exact Or.inl ⟨l₁, b, l₂, hl, rfl, huniq l₁ b l₂ hl⟩
  · exact Or.inr fun c hc heq => hb ⟨c, hc, heq⟩

theorem exists_last {p : α → Prop} (h : ∃ a ∈ l, p a) :
    ∃ l₁ a l₂, l = l₁ ++ a :: l₂ ∧ p a ∧ ∀ b ∈ l₂, ¬ p b := by
  induction l with
  | nil => simp at h
  | cons b l ih =>
    by_cases hl : ∃ a ∈ l, p a
    · obtain ⟨l₁, a, l₂, rfl, ha, hlast⟩ := ih hl
      exact ⟨b :: l₁, a, l₂, rfl, ha, hlast⟩
    · obtain ⟨a, ha, hpa⟩ := h
      obtain rfl | ha := List.mem_cons.mp ha
      · exact ⟨[], a, l, rfl, hpa, fun c hc hpc => hl ⟨c, hc, hpc⟩⟩
      · exact absurd ⟨a, ha, hpa⟩ hl

theorem mem_zip_tail {s : List α} {a b : α} (h : l ++ [a, b] <+: s) :
    (a, b) ∈ s.zip s.tail := by
  induction l generalizing s with
  | nil =>
    obtain ⟨r, rfl⟩ := h
    simp
  | cons c l ih =>
    obtain ⟨r, rfl⟩ := h
    have htail := ih (List.prefix_append (l ++ [a, b]) r)
    cases hl : l ++ [a, b] ++ r with
    | nil => simp at hl
    | cons d t =>
      rw [hl] at htail
      simpa [hl] using .inr htail

theorem concat_sublist_concat (l₁ : List α) {l₂ : List α} {a b : α} :
    (l₁ ++ [a]).Sublist (l₂ ++ [b]) ↔ (l₁ ++ [a]).Sublist l₂ ∨ l₁.Sublist l₂ ∧ a = b := by
  rw [← List.reverse_sublist, List.reverse_concat, List.reverse_concat, List.cons_sublist_cons',
    ← List.reverse_concat, List.reverse_sublist, List.reverse_sublist, and_comm]

theorem take_zipIdx (l : List α) (n : Nat) : l.zipIdx.take n = (l.take n).zipIdx := by
  apply List.ext_getElem?
  intro i
  rw [List.getElem?_take, List.getElem?_zipIdx, List.getElem?_zipIdx, List.getElem?_take]
  split <;> rfl

end Lists
