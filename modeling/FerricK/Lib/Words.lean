import Mathlib.Data.List.DropRight
import Mathlib.Tactic.Common

namespace Words

variable {α : Type*} {blank : α → Bool} {l core pre post name tail : List α}

/-- `pre` is blank and `name` is the first maximal run without blanks, with `tail` after it. -/
structure FirstRun (blank : α → Bool) (pre name tail : List α) : Prop where
  before : ∀ c ∈ pre, blank c = true
  ne_nil : name ≠ []
  solid : ∀ c ∈ name, blank c = false
  maximal : ∀ c ∈ tail.head?, blank c = true

structure Tight (blank : α → Bool) (l : List α) : Prop where
  head : ∀ c ∈ l.head?, blank c = false
  last : ∀ c ∈ l.getLast?, blank c = false

structure Trimmed (blank : α → Bool) (l core : List α) : Prop extends Tight blank core where
  blanks : ∃ pre post, (∀ c ∈ pre, blank c = true) ∧ (∀ c ∈ post, blank c = true) ∧
    l = pre ++ core ++ post

def trim (blank : α → Bool) (l : List α) : List α := (l.dropWhile blank).rdropWhile blank

theorem rdropWhile_append (h : ∀ c ∈ post, blank c = true) :
    (l ++ post).rdropWhile blank = l.rdropWhile blank := by
  rw [List.rdropWhile, List.reverse_append, List.dropWhile_append_of_pos, List.rdropWhile]
  simpa using h

theorem trim_pad (hpre : ∀ c ∈ pre, blank c = true) (hpost : ∀ c ∈ post, blank c = true) :
    trim blank (pre ++ l ++ post) = trim blank l := by
  rw [trim, trim, List.append_assoc, List.dropWhile_append_of_pos hpre, List.dropWhile_append]
  split
  · rename_i hempty
    rw [List.dropWhile_eq_nil_iff.mpr hpost, List.isEmpty_iff.mp hempty]
  · exact rdropWhile_append hpost

theorem trim_rdropWhile (l : List α) : trim blank (l.rdropWhile blank) = trim blank l := by
  have hpost : ∀ c ∈ l.rtakeWhile blank, blank c = true := fun c hc => List.mem_rtakeWhile_imp hc
  have hpad : trim blank ([] ++ l.rdropWhile blank ++ l.rtakeWhile blank) =
      trim blank (l.rdropWhile blank) := trim_pad (by simp) hpost
  rw [← hpad, List.nil_append, List.rdropWhile_append_rtakeWhile]

theorem Tight.trim_eq (h : Tight blank l) : trim blank l = l := by
  cases l with
  | nil => rfl
  | cons c l =>
    have hhead : blank c = false := h.head c rfl
    rw [trim, List.dropWhile_cons_of_neg (by simp [hhead]), List.rdropWhile_eq_self_iff]
    intro hne
    simpa using h.last _ (List.getLast?_eq_getLast_of_ne_nil hne)

theorem Trimmed.trim_eq (h : Trimmed blank l core) : trim blank l = core := by
  obtain ⟨pre, post, hpre, hpost, rfl⟩ := h.blanks
  rw [trim_pad hpre hpost, h.toTight.trim_eq]

theorem head?_dropWhile (l : List α) : ∀ c ∈ (l.dropWhile blank).head?, blank c = false := by
  intro c hc
  have hnot := List.head?_dropWhile_not blank l
  rwa [Option.mem_def.mp hc] at hnot

theorem trimmed_trim (blank : α → Bool) (l : List α) : Trimmed blank l (trim blank l) where
  head := by
    intro c hc
    obtain ⟨post, hpost⟩ : trim blank l <+: l.dropWhile blank :=
      List.rdropWhile_prefix _ _
    apply head?_dropWhile l
    rw [← hpost, List.head?_append, Option.mem_def.mp hc, Option.some_or, Option.mem_def]
  last := by
    intro c hc
    obtain ⟨hne, hlast⟩ := List.mem_getLast?_eq_getLast hc
    rw [hlast]
    exact Bool.eq_false_iff.mpr (List.rdropWhile_last_not _ _ hne)
  blanks := by
    refine ⟨l.takeWhile blank, (l.dropWhile blank).rtakeWhile blank, ?_, ?_, ?_⟩
    · exact fun c hc => List.mem_takeWhile_imp hc
    · exact fun c hc => List.mem_rtakeWhile_imp hc
    · rw [trim, List.append_assoc, List.rdropWhile_append_rtakeWhile,
        List.takeWhile_append_dropWhile]

theorem length_trim_le (blank : α → Bool) (l : List α) : (trim blank l).length ≤ l.length :=
  (List.rdropWhile_prefix blank _).length_le.trans (List.dropWhile_suffix _).length_le

theorem trim_eq_nil_iff : trim blank l = [] ↔ ∀ c ∈ l, blank c = true := by
  constructor
  · intro hnil c hc
    obtain ⟨pre, post, hpre, hpost, hl⟩ := (trimmed_trim blank l).blanks
    rw [hnil, List.append_nil] at hl
    rw [hl, List.mem_append] at hc
    exact hc.elim (hpre c) (hpost c)
  · intro h
    rw [trim, List.dropWhile_eq_nil_iff.mpr h, List.rdropWhile_nil]

theorem exists_firstRun (h : ∃ c ∈ l, blank c = false) :
    ∃ pre name tail, l = pre ++ name ++ tail ∧ FirstRun blank pre name tail := by
  let solid : α → Bool := fun c => !blank c
  let body := l.dropWhile blank
  have hbody : l = l.takeWhile blank ++ body := List.takeWhile_append_dropWhile.symm
  have hname : body = body.takeWhile solid ++ body.dropWhile solid :=
    List.takeWhile_append_dropWhile.symm
  refine ⟨l.takeWhile blank, body.takeWhile solid, body.dropWhile solid, ?_, ?_, ?_, ?_, ?_⟩
  · rw [List.append_assoc, ← hname]
    exact hbody
  · exact fun c hc => List.mem_takeWhile_imp hc
  · obtain ⟨c, hc, hblank⟩ := h
    cases hb : body with
    | nil =>
      have hall : blank c = true := List.dropWhile_eq_nil_iff.mp hb c hc
      rw [hall] at hblank
      exact nomatch hblank
    | cons d body' =>
      have hd : blank d = false := by
        apply head?_dropWhile l
        rw [show l.dropWhile blank = d :: body' from hb, List.head?_cons, Option.mem_def]
      rw [List.takeWhile_cons_of_pos (by simp [solid, hd])]
      exact List.cons_ne_nil _ _
  · intro c hc
    simpa [solid] using List.mem_takeWhile_imp hc
  · intro c hc
    have hsolid : solid c = false := head?_dropWhile body c hc
    simpa [solid] using hsolid

namespace FirstRun

/-- Trimming a line leaves its first word, and what is after it up to the last blanks. -/
theorem trim_eq (h : FirstRun blank pre name tail) :
    trim blank (pre ++ name ++ tail) = name ++ tail.rdropWhile blank := by
  have hstart : (name ++ tail).dropWhile blank = name ++ tail := by
    cases hname : name with
    | nil => exact absurd hname h.ne_nil
    | cons c name' =>
      have hc : blank c = false := h.solid c (by rw [hname]; exact List.mem_cons_self)
      exact List.dropWhile_cons_of_neg (by simp [hc])
  have hend : name.rdropWhile blank = name := by
    rw [List.rdropWhile_eq_self_iff]
    intro hne
    simpa using h.solid _ (List.getLast_mem hne)
  rw [trim, List.append_assoc, List.dropWhile_append_of_pos h.before, hstart]
  by_cases htail : ∀ c ∈ tail, blank c = true
  · rw [rdropWhile_append htail, hend, List.rdropWhile_eq_nil_iff.mpr htail, List.append_nil]
  · have hne : ¬ (tail.reverse.dropWhile blank).isEmpty = true := by
      simpa using htail
    rw [List.rdropWhile, List.reverse_append, List.dropWhile_append, if_neg hne,
      List.reverse_append, List.reverse_reverse, List.rdropWhile]

theorem rdropWhile (h : FirstRun blank pre name tail) :
    FirstRun blank [] name (tail.rdropWhile blank) where
  before := by simp
  ne_nil := h.ne_nil
  solid := h.solid
  maximal := by
    intro c hc
    obtain ⟨post, hpost⟩ : tail.rdropWhile blank <+: tail := List.rdropWhile_prefix _ _
    apply h.maximal
    rw [← hpost, List.head?_append, Option.mem_def.mp hc, Option.some_or, Option.mem_def]

theorem splitAt_eq (h : FirstRun blank [] name tail) :
    (name ++ tail).splitAt (((name ++ tail).findIdx? blank).getD (name ++ tail).length) =
      (name, tail) := by
  have hname : name.findIdx? blank = none := List.findIdx?_eq_none_iff.mpr h.solid
  have hlength : ((name ++ tail).findIdx? blank).getD (name ++ tail).length = name.length := by
    rw [List.findIdx?_append, hname, Option.none_or]
    cases tail with
    | nil => simp
    | cons c tail =>
      have hc : blank c = true := h.maximal c rfl
      rw [List.findIdx?_cons, if_pos hc]
      simp
  rw [hlength, List.splitAt_eq, List.take_left, List.drop_left]

end FirstRun

end Words
