import Mathlib.Logic.Relation

universe u v

/-- A system of parties that take turns: its first states, and what one step can do. -/
structure System (σ : Type u) where
  init : σ → Prop
  step : σ → σ → Prop

namespace System

variable {S : System σ} {I P : σ → Prop} {s s' : σ}

def Steps (S : System σ) : σ → σ → Prop := Relation.ReflTransGen S.step

def Reachable (S : System σ) (s : σ) : Prop := ∃ s₀, S.init s₀ ∧ S.Steps s₀ s

structure Invariant (S : System σ) (I : σ → Prop) : Prop where
  init : ∀ {s}, S.init s → I s
  step : ∀ {s s'}, I s → S.step s s' → I s'

theorem Steps.refl (s : σ) : S.Steps s s := Relation.ReflTransGen.refl

theorem Steps.tail {s'' : σ} (h : S.Steps s s') (hstep : S.step s' s'') : S.Steps s s'' :=
  Relation.ReflTransGen.tail h hstep

theorem Reachable.init (h : S.init s) : S.Reachable s := ⟨s, h, Steps.refl s⟩

theorem Reachable.steps (h : S.Reachable s) (hsteps : S.Steps s s') : S.Reachable s' := by
  obtain ⟨s₀, hinit, hs⟩ := h
  exact ⟨s₀, hinit, Relation.ReflTransGen.trans hs hsteps⟩

theorem Reachable.schedule {f : σ → ι → Option σ} (hf : ∀ s i s', f s i = some s' → S.step s s')
    (h : S.Reachable s) {l : List ι} (hl : l.foldlM f s = some s') : S.Reachable s' := by
  induction l generalizing s with
  | nil =>
    cases hl
    exact h
  | cons i l ih =>
    rw [List.foldlM_cons] at hl
    obtain ⟨s₁, hs₁, hl⟩ := Option.bind_eq_some_iff.mp hl
    exact ih (h.steps ((Steps.refl s).tail (hf s i s₁ hs₁))) hl

theorem Invariant.stable (h : S.Invariant I)
    (step : ∀ {s s'}, I s → P s → S.step s s' → P s') (hI : I s) (hP : P s)
    (hsteps : S.Steps s s') : I s' ∧ P s' := by
  induction hsteps with
  | refl => exact ⟨hI, hP⟩
  | tail _ hstep ih => exact ⟨h.step ih.1 hstep, step ih.1 ih.2 hstep⟩

theorem Invariant.steps (h : S.Invariant I) (hI : I s) (hsteps : S.Steps s s') : I s' :=
  (h.stable (fun _ _ _ => True.intro) hI True.intro hsteps).1

theorem Invariant.reachable (h : S.Invariant I) (hs : S.Reachable s) : I s := by
  obtain ⟨s₀, hinit, hsteps⟩ := hs
  exact h.steps (h.init hinit) hsteps

section

variable {ι : Type v} {move : σ → ι → σ → Prop} {who all : ι → Prop} {t : ι} {s'' : σ}

def Turns (move : σ → ι → σ → Prop) (who : ι → Prop) : σ → σ → Prop :=
  Relation.ReflTransGen fun s s' => ∃ t, who t ∧ move s t s'

theorem Turns.single (h : move s t s') : Turns move (· = t) s s' :=
  Relation.ReflTransGen.single ⟨t, rfl, h⟩

theorem Turns.trans (h : Turns move who s s') (h' : Turns move who s' s'') :
    Turns move who s s'' := Relation.ReflTransGen.trans h h'

theorem Turns.mono (h : Turns move who s s') (hall : ∀ t, who t → all t) : Turns move all s s' :=
  Relation.ReflTransGen.mono (fun _ _ h => h.imp fun t h => ⟨hall t h.1, h.2⟩) _ _ h

theorem Turns.steps (h : Turns move who s s') (hmove : ∀ {s t s'}, move s t s' → S.step s s') :
    S.Steps s s' :=
  Relation.ReflTransGen.mono (fun _ _ h => h.elim fun _ h => hmove h.2) _ _ h

end

end System
