import FerricK.Sync.Spinlock

universe u v

namespace FerricK

namespace Spinlock

open Rust

variable {ι : Type u} {T : Type v}

def HeldBy (s : Spinlock ι T) (t : ι) : Prop := ∃ g ∈ s.guards, g.owner = t ∧ g.dropped = false

variable {s s' : Spinlock ι T} {value : T} {t u : ι} {k : Nat} {spurious : Bool}

theorem not_heldBy_new (value : T) (t : ι) : ¬ (Spinlock.new value).HeldBy t := by
  rintro ⟨g, hg, -⟩
  exact absurd hg List.not_mem_nil

theorem Inv.heldBy_iff (inv : Inv value s) :
    (∃ t, s.HeldBy t) ↔ s.locked = true := by
  cases inv with
  | free hlocked hguards _ =>
    refine iff_of_false ?_ (by simp [hlocked])
    rintro ⟨t, g, hg, -, hlive⟩
    exact absurd (hguards g hg) (by simp [hlive])
  | held hlocked hguards _ hlive _ =>
    exact iff_of_true ⟨_, _, by simp [hguards], rfl, hlive⟩ hlocked

theorem Inv.heldBy_unique (inv : Inv value s) (ht : s.HeldBy t) (hu : s.HeldBy u) : t = u := by
  obtain ⟨g, hg, rfl, hglive⟩ := ht
  obtain ⟨g', hg', rfl, hglive'⟩ := hu
  obtain ⟨j, hj⟩ := List.mem_iff_getElem?.mp hg
  obtain ⟨k, hk⟩ := List.mem_iff_getElem?.mp hg'
  obtain ⟨-, past, hpast, -⟩ := inv.of_live hj hglive
  obtain ⟨-, past', hpast', -⟩ := inv.of_live hk hglive'
  rw [hpast] at hpast'
  obtain ⟨-, hlast⟩ := List.append_inj' hpast' rfl
  rw [List.singleton_inj.mp hlast]

theorem heldBy_handOut : (s.handOut t).HeldBy u ↔ s.HeldBy u ∨ u = t := by
  simp only [HeldBy, handOut, List.mem_append, List.mem_singleton, or_and_right, exists_or,
    exists_eq_left, and_true, eq_comm (a := t)]

variable [DecidableEq ι]

theorem step_lock (h : s.step t .lock = some s') :
    s.spinning t = false ∧ s' = { s with spinning := Function.update s.spinning t true } := by
  simp only [Spinlock.step, Option.ite_none_left_eq_some, Option.some.injEq] at h
  exact ⟨by simpa using h.1, h.2.symm⟩

theorem step_spin (h : s.step t (.spin spurious) = some s') :
    s.spinning t = true ∧ (s' = s ∨ s.locked = false ∧ s' =
      { s with locked := true, spinning := Function.update s.spinning t false }.handOut t) := by
  simp only [Spinlock.step, Option.ite_none_right_eq_some, Option.some.injEq] at h
  obtain ⟨hspin, rfl⟩ := h
  refine ⟨hspin, ?_⟩
  cases spurious with
  | true => exact Or.inl rfl
  | false =>
    rcases hlocked : s.locked with _ | _
    · refine Or.inr ⟨rfl, ?_⟩
      simp [Spinlock.spin, compareExchange, hlocked]
    · refine Or.inl ?_
      simp only [Spinlock.spin, compareExchange, hlocked, Bool.false_eq_true, Bool.true_eq_false,
        ↓reduceIte]
      rw [← hlocked]

theorem step_drop (h : s.step t (.drop k) = some s') :
    ∃ g, s.guards[k]? = some g ∧ g.owner = t ∧ g.dropped = false ∧ s' = s.drop k g := by
  obtain ⟨g, hg, rfl⟩ := Option.map_eq_some_iff.mp h
  obtain ⟨hk, hmine⟩ := Option.filter_eq_some_iff.mp hg
  obtain ⟨howner, hlive, -⟩ := of_decide_eq_true hmine
  exact ⟨g, hk, howner, hlive, rfl⟩

theorem HeldBy.drop (h : s.HeldBy t) (hspin : s.spinning t = false) :
    ∃ k s', s.step t (.drop k) = some s' := by
  obtain ⟨g, hg, howner, hlive⟩ := h
  obtain ⟨k, hk⟩ := List.mem_iff_getElem?.mp hg
  exact ⟨k, s.drop k g, by simp [Spinlock.step, held, hk, howner, hlive, hspin]⟩

theorem spin_of_free (hspin : s.spinning t = true) (hlocked : s.locked = false) :
    s.step t (.spin false) = some
      ({ s with locked := true, spinning := Function.update s.spinning t false }.handOut t) := by
  simp [Spinlock.step, Spinlock.spin, compareExchange, hspin, hlocked]

theorem Inv.not_heldBy_drop (inv : Inv value s) (h : s.step t (.drop k) = some s') :
    ¬ s'.HeldBy u ∧ s'.spinning = s.spinning ∧ s'.locked = false := by
  obtain ⟨g, hk, rfl, hlive, rfl⟩ := step_drop h
  refine ⟨fun hheld => ?_, rfl, rfl⟩
  have hfree := (inv.step h).heldBy_iff.mp ⟨u, hheld⟩
  exact absurd hfree (by simp [Spinlock.drop])

end Spinlock

end FerricK
