import Mathlib.Data.List.Basic
import Mathlib.Tactic.Common

namespace Poll

variable {σ ο β : Type*} {poll : σ → Option ο × σ} {queue : σ → List β} {s s' : σ} {o : ο}
  {os : List ο}

/-- What the polls give out up to the first that gives nothing, and the state it leaves. -/
inductive Drains (poll : σ → Option ο × σ) : σ → List ο → σ → Prop
  | stop {s s' : σ} (h : poll s = (none, s')) : Drains poll s [] s'
  | next {s s₁ s' : σ} {o : ο} {os : List ο} (h : poll s = (some o, s₁))
      (hrest : Drains poll s₁ os s') : Drains poll s (o :: os) s'

/-- The first poll that gives nothing finds the queue empty, and those before it gave out `os`. -/
def Empties (poll : σ → Option ο × σ) (queue : σ → List β) (s : σ) (os : List ο) : Prop :=
  ∃ s', Drains poll s os s' ∧ queue s' = []

theorem empties_of_none (h : poll s = (none, s')) :
    Empties poll queue s os ↔ os = [] ∧ queue s' = [] := by
  constructor
  · rintro ⟨s'', hdrains, hqueue⟩
    cases hdrains with
    | stop hstop =>
      obtain rfl : s' = s'' := congrArg Prod.snd (h.symm.trans hstop)
      exact ⟨rfl, hqueue⟩
    | next hnext _ => cases h.symm.trans hnext
  · rintro ⟨rfl, hqueue⟩
    exact ⟨s', .stop h, hqueue⟩

theorem empties_of_some (h : poll s = (some o, s')) :
    Empties poll queue s (o :: os) ↔ Empties poll queue s' os := by
  constructor
  · rintro ⟨s'', hdrains, hqueue⟩
    cases hdrains with
    | next hnext hrest =>
      obtain rfl : s' = _ := congrArg Prod.snd (h.symm.trans hnext)
      exact ⟨s'', hrest, hqueue⟩
  · rintro ⟨s'', hrest, hqueue⟩
    exact ⟨s'', .next h hrest, hqueue⟩

theorem Empties.congr (h : poll s = poll s') (hs : Empties poll queue s' os) :
    Empties poll queue s os := by
  obtain ⟨s'', hdrains, hqueue⟩ := hs
  refine ⟨s'', ?_, hqueue⟩
  cases hdrains with
  | stop hstop => exact .stop (h.trans hstop)
  | next hnext hrest => exact .next (h.trans hnext) hrest

end Poll
