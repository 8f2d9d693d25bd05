import FerricK.Keyboard.Framing
import FerricK.Lib.Lists

namespace FerricK.ScancodeDecoder

def Pending (l : List UInt8) : Prop := ∃ m n, l = m ++ 0xE1 :: n ∧ 0xC5 ∉ n

/-- The bytes before `b` end in the begin of a pause sequence, and `b` is its next byte. -/
def Continues (l : List UInt8) (b : UInt8) : Prop :=
  ∃ m n, l = m ++ n ∧ n ≠ [] ∧ n ++ [b] <+: pauseSequence

def MaySwallow (l : List UInt8) (b : UInt8) : Prop := b = 0xE0 ∨ b = 0xE1 ∨ Continues l b

/-- Only prefixes and the bytes of a pause sequence go without an event, and after an `0xE1` no
more than five other bytes. -/
structure NothingSwallowed (bs : List UInt8) : Prop where
  belongs : ∀ l b r, bs = l ++ b :: r → ((new.feed l).2.push b).1 = none → MaySwallow l b
  recovers : ∀ l n r, bs = l ++ 0xE1 :: (n ++ r) → n.length = 6 →
    (∀ b ∈ n, b ≠ 0xE0 ∧ b ≠ 0xE1) → ((new.feed (l ++ [0xE1])).2.feed n).1 ≠ []

variable {d : ScancodeDecoder} {l m n bs : List UInt8} {a b : UInt8}

theorem pending_concat : Pending (l ++ [b]) ↔ b = 0xE1 ∨ Pending l ∧ b ≠ 0xC5 := by
  constructor
  · rintro ⟨m, n, heq, hn⟩
    cases n using List.reverseRecOn with
    | nil => exact .inl (List.head_eq_of_cons_eq (List.append_inj' heq rfl).2)
    | append_singleton n last =>
      rw [← List.cons_append, ← List.append_assoc] at heq
      obtain ⟨rfl, hlast⟩ := List.append_inj' heq rfl
      obtain rfl := List.head_eq_of_cons_eq hlast
      obtain ⟨hn, hb⟩ := not_or.mp (List.mem_append.not.mp hn)
      exact .inr ⟨⟨m, n, rfl, hn⟩, fun h => hb (List.mem_singleton.mpr h.symm)⟩
  · rintro (rfl | ⟨⟨m, n, rfl, hn⟩, hb⟩)
    · exact ⟨l, [], rfl, List.not_mem_nil⟩
    · refine ⟨m, n ++ [b], by simp, ?_⟩
      simpa using ⟨hn, hb.symm⟩

theorem pause_push : (d.push b).2.pause = true ↔ b = 0xE1 ∨ d.pause = true ∧ b ≠ 0xC5 := by
  unfold push
  cases hpause : d.pause with
  | true => by_cases hb : b = 0xC5 <;> simp [hb, hpause]
  | false =>
    by_cases h0 : b = 0xE0
    · simp [h0]
    · by_cases h1 : b = 0xE1
      · simp [h1]
      · simp [h0, h1]

theorem push_eq_none : (d.push b).1 = none ↔ d.pause = true ∨ b = 0xE0 ∨ b = 0xE1 := by
  unfold push
  cases hpause : d.pause with
  | true => simp
  | false =>
    by_cases h0 : b = 0xE0
    · simp [h0]
    · by_cases h1 : b = 0xE1 <;> simp [h0, h1]

theorem pause_feed (l : List UInt8) : (new.feed l).2.pause = true ↔ Pending l := by
  induction l using List.reverseRecOn with
  | nil => simp [feed, Mealy.feed, new, Pending]
  | append_singleton l b ih => rw [feed, Mealy.feed_concat, pause_push, pending_concat, ← feed, ih]

theorem push_feed_eq_none (l : List UInt8) (b : UInt8) :
    ((new.feed l).2.push b).1 = none ↔ Pending l ∨ b = 0xE0 ∨ b = 0xE1 := by
  rw [push_eq_none, pause_feed]

theorem Continues.mem_zip (h : Continues l b) (ha : l.getLast? = some a) :
    (a, b) ∈ pauseSequence.zip pauseSequence.tail := by
  obtain ⟨m, n, rfl, hne, hprefix⟩ := h
  rw [List.getLast?_append_of_ne_nil m hne] at ha
  obtain ⟨n, rfl⟩ := List.getLast?_eq_some_iff.mp ha
  rw [List.append_assoc] at hprefix
  exact Lists.mem_zip_tail hprefix

theorem MaySwallow.neighbours (h : MaySwallow l b) (ha : l.getLast? = some a)
    (hb : b ≠ 0xE0 ∧ b ≠ 0xE1) :
    a = 0xE1 ∧ b = 0x1D ∨ a = 0x1D ∧ b = 0x45 ∨ a = 0xE1 ∧ b = 0x9D ∨ a = 0x9D ∧ b = 0xC5 := by
  obtain hb0 | hb1 | hcont := h
  · exact absurd hb0 hb.1
  · exact absurd hb1 hb.2
  · have hzip := hcont.mem_zip ha
    simpa [pauseSequence, hb.2] using hzip

/-- Of three such bytes after an `0xE1`, not all go on with a pause. -/
theorem recovers_of_belongs (h : ∀ l b r, bs = l ++ b :: r →
    ((new.feed l).2.push b).1 = none → MaySwallow l b) {r : List UInt8}
    (heq : bs = l ++ 0xE1 :: (n ++ r)) (hlength : n.length = 6)
    (hn : ∀ b ∈ n, b ≠ 0xE0 ∧ b ≠ 0xE1) : ((new.feed (l ++ [0xE1])).2.feed n).1 ≠ [] := by
  intro hnil
  have hswallow : ∀ p b q, n = p ++ b :: q → MaySwallow (l ++ [0xE1] ++ p) b := by
    rintro p b q rfl
    refine h _ b (q ++ r) (by simp [heq]) ?_
    rw [feed, Mealy.feed_append]
    exact Mealy.step_eq_none hnil
  obtain ⟨b₁, n, rfl⟩ := List.exists_cons_of_length_eq_add_one hlength
  obtain ⟨b₂, n, rfl⟩ := List.exists_cons_of_length_eq_add_one (Nat.succ.inj hlength)
  obtain ⟨b₃, n, rfl⟩ := List.exists_cons_of_length_eq_add_one (Nat.succ.inj (Nat.succ.inj hlength))
  have h₁ := (hswallow [] b₁ _ rfl).neighbours (a := 0xE1) (by simp) (hn b₁ (by simp))
  have h₂ := (hswallow [b₁] b₂ _ rfl).neighbours (a := b₁) (by simp) (hn b₂ (by simp))
  have h₃ := (hswallow [b₁, b₂] b₃ _ rfl).neighbours (a := b₂) (by simp) (hn b₃ (by simp))
  have hfirst : b₁ = 0x1D ∨ b₁ = 0x9D := by simpa using h₁
  obtain rfl | rfl := hfirst
  · have hsecond : b₂ = 0x45 := by simpa using h₂
    subst hsecond
    simp at h₃
  · have hsecond : b₂ = 0xC5 := by simpa using h₂
    subst hsecond
    simp at h₃

theorem nothing_swallowed_iff (bs : List UInt8) :
    NothingSwallowed bs ↔ ∀ l b r, bs = l ++ b :: r → Pending l → MaySwallow l b := by
  constructor
  · intro h l b r heq hpending
    exact h.belongs l b r heq ((push_feed_eq_none l b).mpr (.inl hpending))
  · intro h
    have hbelongs : ∀ l b r, bs = l ++ b :: r →
        ((new.feed l).2.push b).1 = none → MaySwallow l b := by
      intro l b r heq hnone
      obtain hpending | h0 | h1 := (push_feed_eq_none l b).mp hnone
      · exact h l b r heq hpending
      · exact .inl h0
      · exact .inr (.inl h1)
    exact ⟨hbelongs, fun l n r => recovers_of_belongs hbelongs⟩

def truncated : List UInt8 := [0xE1, 0x1D, 0x45, 0xE1, 0x9D, 0x1E]

theorem truncated_swallows : ¬ NothingSwallowed truncated := by
  intro h
  have hmay := h.belongs [0xE1, 0x1D, 0x45, 0xE1, 0x9D] 0x1E [] rfl (by decide)
  exact absurd (hmay.neighbours (a := 0x9D) rfl (by decide)) (by decide)

end FerricK.ScancodeDecoder
