import Mathlib.Data.List.Pairwise
import Mathlib.Data.List.Perm.Basic
import Mathlib.Order.Interval.Finset.Nat
import Mathlib.Order.Lattice
import Mathlib.Order.Defs.LinearOrder

namespace Tiling

variable {α : Type*} [LinearOrder α] {lo hi a b c : α} {ps qs : List (α × α)}

def Apart (p q : α × α) : Prop := p.2 ≤ q.1 ∨ q.2 ≤ p.1

theorem Apart.symm {p q : α × α} (h : Apart p q) : Apart q p := Or.symm h

instance : Std.Symm (Apart (α := α)) := ⟨fun _ _ => Apart.symm⟩

/-- `ps` cuts `[lo, hi)` into nonempty pieces: no gap and no overlap. -/
structure Tiles (lo hi : α) (ps : List (α × α)) : Prop where
  nonempty : ∀ p ∈ ps, p.1 < p.2
  within : ∀ p ∈ ps, lo ≤ p.1 ∧ p.2 ≤ hi
  disjoint : ps.Pairwise Apart
  cover : ∀ x, lo ≤ x → x < hi → ∃ p ∈ ps, p.1 ≤ x ∧ x < p.2

theorem Tiles.apart (h : Tiles lo hi ps) {p q : α × α} (hp : p ∈ ps) (hq : q ∈ ps)
    (hne : p ≠ q) : Apart p q := h.disjoint.forall hp hq hne

theorem Tiles.singleton (h : lo < hi) : Tiles lo hi [(lo, hi)] where
  nonempty := by simpa
  within := by simp
  disjoint := List.pairwise_singleton _ _
  cover x hlo hhi := ⟨_, List.mem_singleton_self _, hlo, hhi⟩

theorem Tiles.perm (h : Tiles lo hi ps) (hp : ps.Perm qs) : Tiles lo hi qs where
  nonempty p hq := h.nonempty p (hp.mem_iff.mpr hq)
  within p hq := h.within p (hp.mem_iff.mpr hq)
  disjoint := (hp.pairwise_iff Apart.symm).mp h.disjoint
  cover x hlo hhi := by
    obtain ⟨p, hmem, hx⟩ := h.cover x hlo hhi
    exact ⟨p, hp.mem_iff.mp hmem, hx⟩

theorem Tiles.split (h : Tiles lo hi ((a, c) :: ps)) (hab : a < b) (hbc : b < c) :
    Tiles lo hi ((a, b) :: (b, c) :: ps) where
  nonempty := by
    have := h.nonempty
    simp_all
  within := by
    have hw := h.within
    simp only [List.forall_mem_cons] at hw ⊢
    exact ⟨⟨hw.1.1, hbc.le.trans hw.1.2⟩, ⟨hw.1.1.trans hab.le, hw.1.2⟩, hw.2⟩
  disjoint := by
    obtain ⟨hhead, htail⟩ := List.pairwise_cons.mp h.disjoint
    refine List.pairwise_cons.mpr ⟨?_, List.pairwise_cons.mpr ⟨?_, htail⟩⟩
    · intro q hq
      rcases List.mem_cons.mp hq with rfl | hq
      · exact Or.inl le_rfl
      · exact (hhead q hq).imp_left hbc.le.trans
    · intro q hq
      exact (hhead q hq).imp_right fun hle => hle.trans hab.le
  cover x hlo hhi := by
    obtain ⟨p, hmem, hx⟩ := h.cover x hlo hhi
    rcases List.mem_cons.mp hmem with rfl | hmem
    · rcases lt_or_ge x b with hxb | hbx
      · exact ⟨(a, b), by simp, hx.1, hxb⟩
      · exact ⟨(b, c), by simp, hbx, hx.2⟩
    · exact ⟨p, by simp [hmem], hx⟩

theorem Tiles.join (h : Tiles lo hi ((a, b) :: (b, c) :: ps)) :
    Tiles lo hi ((a, c) :: ps) where
  nonempty := by
    have hne := h.nonempty
    simp only [List.forall_mem_cons] at hne ⊢
    exact ⟨hne.1.trans hne.2.1, hne.2.2⟩
  within := by
    have hw := h.within
    simp only [List.forall_mem_cons] at hw ⊢
    exact ⟨⟨hw.1.1, hw.2.1.2⟩, hw.2.2⟩
  disjoint := by
    obtain ⟨hleft, hrest⟩ := List.pairwise_cons.mp h.disjoint
    obtain ⟨hright, htail⟩ := List.pairwise_cons.mp hrest
    refine List.pairwise_cons.mpr ⟨fun q hq => ?_, htail⟩
    rcases hright q hq with hcq | hqb
    · exact Or.inl hcq
    · -- `q` ends at or before `b`, and it is apart from `[a, b)`: it ends before `a`
      rcases hleft q (List.mem_cons_of_mem _ hq) with hbq | hqa
      · have hlt := h.nonempty q (by simp [hq])
        exact absurd (hlt.trans_le (hqb.trans hbq)) (lt_irrefl _)
      · exact Or.inr hqa
  cover x hlo hhi := by
    have hne := h.nonempty
    simp only [List.forall_mem_cons] at hne
    obtain ⟨p, hmem, hx⟩ := h.cover x hlo hhi
    rcases List.mem_cons.mp hmem with rfl | hmem
    · exact ⟨(a, c), by simp, hx.1, hx.2.trans hne.2.1⟩
    rcases List.mem_cons.mp hmem with rfl | hmem
    · exact ⟨(a, c), by simp, hne.1.le.trans hx.1, hx.2⟩
    · exact ⟨p, by simp [hmem], hx⟩

/-- A tiling in which no piece ends where another begins has one piece. -/
theorem Tiles.eq_singleton (h : Tiles lo hi ps) (hlt : lo < hi)
    (hsep : ∀ p ∈ ps, ∀ q ∈ ps, p.2 ≠ q.1) : ps = [(lo, hi)] := by
  obtain ⟨p, hp, hplo, -⟩ := h.cover lo le_rfl hlt
  have hp1 : p.1 = lo := le_antisymm hplo (h.within p hp).1
  -- the piece after `p` would start where `p` ends
  have hp2 : p.2 = hi := by
    rcases (h.within p hp).2.lt_or_eq with hlt' | heq
    · obtain ⟨q, hq, hqle, hltq⟩ := h.cover p.2 ((h.within p hp).1.trans (h.nonempty p hp).le) hlt'
      have hne : p ≠ q := by
        rintro rfl
        exact lt_irrefl _ hltq
      rcases h.apart hp hq hne with hle | hle
      · exact absurd (le_antisymm hle hqle) (hsep p hp q hq)
      · exact absurd (hltq.trans_le hle) (h.nonempty p hp).not_gt
    · exact heq
  obtain ⟨l, r, rfl⟩ := List.append_of_mem hp
  have hall : ∀ q ∈ l ++ r, False := by
    intro q hq
    have hapart : Apart p q := by
      have hd := (List.perm_middle.pairwise_iff Apart.symm).mp h.disjoint
      exact (List.pairwise_cons.mp hd).1 q hq
    have hmem : q ∈ l ++ p :: r := by
      rw [List.mem_append, List.mem_cons]
      rw [List.mem_append] at hq
      tauto
    have hlt := h.nonempty q hmem
    have hw := h.within q hmem
    rcases hapart with hle | hle
    · exact absurd (hlt.trans_le hw.2) (hp2 ▸ hle).not_gt
    · exact absurd (hw.1.trans_lt hlt) (hp1 ▸ hle).not_gt
  have hnil : l ++ r = [] := List.eq_nil_iff_forall_not_mem.mpr hall
  obtain ⟨rfl, rfl⟩ := List.append_eq_nil_iff.mp hnil
  simp [← hp1, ← hp2]

theorem Tiles.nodup_starts (h : Tiles lo hi ps) : (ps.map Prod.fst).Nodup := by
  refine List.pairwise_map.mpr (h.disjoint.imp_of_mem fun {p q} hp hq hapart heq => ?_)
  rcases hapart with hle | hle
  · exact absurd (heq ▸ h.nonempty p hp) (hle.not_gt)
  · exact absurd (heq ▸ h.nonempty q hq) (hle.not_gt)

theorem Tiles.length_le {lo hi : Nat} {ps : List (Nat × Nat)} (h : Tiles lo hi ps) :
    ps.length ≤ hi - lo := by
  have hsub : (ps.map Prod.fst).toFinset ⊆ Finset.Ico lo hi := by
    intro x hx
    obtain ⟨p, hp, rfl⟩ := List.mem_map.mp (List.mem_toFinset.mp hx)
    have hw := h.within p hp
    exact Finset.mem_Ico.mpr ⟨hw.1, (h.nonempty p hp).trans_le hw.2⟩
  have hcard := Finset.card_le_card hsub
  rwa [List.toFinset_card_of_nodup h.nodup_starts, List.length_map, Nat.card_Ico] at hcard

end Tiling
