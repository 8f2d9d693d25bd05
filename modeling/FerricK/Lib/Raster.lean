import FerricK.Lib.Rust
import Mathlib.Data.Set.Basic

namespace Raster

open Rust

structure Painted {ι V : Type*} (D R : Set ι) (w old new : ι → V) : Prop where
  inside : ∀ p ∈ D, p ∈ R → new p = w p
  outside : ∀ p ∈ D, p ∉ R → new p = old p

variable {ι V : Type*} {D R S : Set ι} {w old mid new : ι → V}

theorem Painted.refl (D : Set ι) (w old : ι → V) : Painted D ∅ w old old :=
  ⟨fun _ _ hp => hp.elim, fun _ _ _ => rfl⟩

/-- The order does not matter, and the pieces may overlap: they are of one picture. -/
theorem Painted.trans (h : Painted D R w old mid) (h' : Painted D S w mid new) :
    Painted D (R ∪ S) w old new := by
  constructor
  · intro p hp hin
    by_cases hS : p ∈ S
    · exact h'.inside p hp hS
    · rw [h'.outside p hp hS]
      exact h.inside p hp (hin.resolve_right hS)
  · intro p hp hout
    rw [h'.outside p hp (fun hS => hout (Or.inr hS)), h.outside p hp (fun hR => hout (Or.inl hR))]

theorem Painted.congr (h : Painted D R w old new) (hRS : ∀ p ∈ D, p ∈ R ↔ p ∈ S) :
    Painted D S w old new :=
  ⟨fun p hp hS => h.inside p hp ((hRS p hp).mpr hS),
    fun p hp hS => h.outside p hp fun hR => hS ((hRS p hp).mp hR)⟩

theorem Painted.complete (h : Painted D R w old new) (hold : ∀ p ∈ D, p ∈ S → p ∉ R → old p = w p) :
    ∀ p ∈ D, p ∈ S → new p = w p := by
  intro p hp hS
  by_cases hR : p ∈ R
  · exact h.inside p hp hR
  · rw [h.outside p hp hR, hold p hp hS hR]

section Loops

variable {σ : Type} {α : Type} (view : σ → ι → V) (J : σ → Prop) {s : σ}

theorem forRange_painted {n : Nat} {f : Nat → σ → Rust σ} {R : Nat → Set ι} (hs : J s)
    (step : ∀ i < n, ∀ s, J s →
      ∃ s', f i s = .ok s' ∧ J s' ∧ Painted D (R i) w (view s) (view s')) :
    ∃ s', forRange n f s = .ok s' ∧ J s' ∧
      Painted D {p | ∃ i < n, p ∈ R i} w (view s) (view s') := by
  apply forRange_rule
    (fun i s' => J s' ∧ Painted D {p | ∃ j < i, p ∈ R j} w (view s) (view s'))
  · exact ⟨hs, (Painted.refl D w (view s)).congr (by simp)⟩
  · rintro i hi s₁ ⟨hs₁, hpainted⟩
    obtain ⟨s₂, hf, hs₂, hnext⟩ := step i hi s₁ hs₁
    refine ⟨s₂, hf, hs₂, (hpainted.trans hnext).congr fun p _ => ?_⟩
    simp only [Set.mem_union, Set.mem_ofPred_eq, Nat.lt_succ_iff_lt_or_eq]
    grind

theorem forEach_painted {l : List α} {f : α → σ → Rust σ} {R : α → Set ι} (hs : J s)
    (step : ∀ a ∈ l, ∀ s, J s →
      ∃ s', f a s = .ok s' ∧ J s' ∧ Painted D (R a) w (view s) (view s')) :
    ∃ s', forEach l f s = .ok s' ∧ J s' ∧
      Painted D {p | ∃ a ∈ l, p ∈ R a} w (view s) (view s') := by
  induction l generalizing s with
  | nil => exact ⟨s, rfl, hs, (Painted.refl D w (view s)).congr (by simp)⟩
  | cons a l ih =>
    obtain ⟨hhead, htail⟩ := List.forall_mem_cons.mp step
    obtain ⟨s₁, hf, hs₁, hfirst⟩ := hhead s hs
    obtain ⟨s₂, hrest, hs₂, hpainted⟩ := ih hs₁ htail
    refine ⟨s₂, by rw [forEach_cons, hf, ok_bind, hrest], hs₂, ?_⟩
    apply (hfirst.trans hpainted).congr
    simp

end Loops

end Raster
