import FerricK.Heap.Blocks
import FerricK.Lib.Align

namespace FerricK.Heap

def Block.payload (b : Block) (align : Nat) : Nat :=
  Align.up (b.addr + headerSize + headerGap) align

def Block.Fits (b : Block) (size align : Nat) : Prop := b.payload align + size ≤ b.end

instance (b : Block) (size align : Nat) : Decidable (b.Fits size align) :=
  inferInstanceAs (Decidable (_ ≤ _))

/-- Rounding the payload's address up stays within a `usize` in each block up to the first that
fits, or in all. -/
def NoWrap (size align : Nat) : List Block → Prop
  | [] => True
  | b :: fl => b.addr + headerSize + headerGap + (align - 1) < 2 ^ 64 ∧
      (b.Fits size align ∨ NoWrap size align fl)

def Block.Splits (b : Block) (needEnd : Nat) : Prop :=
  minBlock ≤ b.end - needEnd ∧ minBlock ≤ b.end - Align.up needEnd 8

instance (b : Block) (needEnd : Nat) : Decidable (b.Splits needEnd) :=
  inferInstanceAs (Decidable (_ ∧ _))

def Block.front (b : Block) (needEnd : Nat) : Block :=
  if b.Splits needEnd then ⟨b.addr, Align.up needEnd 8 - b.addr⟩ else b

def Block.rest (b : Block) (needEnd : Nat) : List Block :=
  if b.Splits needEnd then [⟨Align.up needEnd 8, b.end - Align.up needEnd 8⟩] else []

/-- The first free block that fits, and the free list once it is taken. -/
def firstFit (size align : Nat) : List Block → Option (Block × List Block)
  | [] => none
  | b :: fl =>
    if b.Fits size align then some (b, b.rest (b.payload align + size) ++ fl)
    else (firstFit size align fl).map fun (c, fl') => (c, b :: fl')

def Block.withRight (B : Block) (fl : List Block) : Block :=
  ⟨B.addr, B.size + ((fl.find? (·.addr == B.end)).map Block.size).getD 0⟩

/-- The free list with `B` in it: appended to the free block that ends where `B` begins, or
as the new head. -/
def absorb (fl : List Block) (B : Block) : List Block :=
  if fl.any (·.end == B.addr) then
    fl.map fun L => if L.end = B.addr then ⟨L.addr, L.size + B.size⟩ else L
  else B :: fl

def release (fl : List Block) (B : Block) : List Block :=
  absorb (fl.eraseP (·.addr == B.end)) (B.withRight fl)

def Coalesced (fl : List Block) : Prop := ∀ b ∈ fl, ∀ c ∈ fl, b.end ≠ c.addr

variable {fl fl' l r : List Block} {b c B L R : Block} {size align : Nat}

theorem firstFit_eq_none : firstFit size align fl = none ↔ ∀ b ∈ fl, ¬b.Fits size align := by
  induction fl with
  | nil => simp [firstFit]
  | cons b fl ih =>
    by_cases hfits : b.Fits size align
    · simp [firstFit, hfits]
    · simp [firstFit, hfits, ih]

theorem firstFit_append (hl : ∀ c ∈ l, ¬c.Fits size align) (hb : b.Fits size align) :
    firstFit size align (l ++ b :: r) =
      some (b, l ++ b.rest (b.payload align + size) ++ r) := by
  induction l with
  | nil => simp [firstFit, hb]
  | cons c l ih =>
    obtain ⟨hc, hl⟩ := List.forall_mem_cons.mp hl
    simp [firstFit, hc, ih hl]

theorem exists_first (hfits : ¬∀ b ∈ fl, ¬b.Fits size align) :
    ∃ l b r, fl = l ++ b :: r ∧ (∀ c ∈ l, ¬c.Fits size align) ∧ b.Fits size align := by
  induction fl with
  | nil => simp at hfits
  | cons b fl ih =>
    by_cases hb : b.Fits size align
    · exact ⟨[], b, fl, rfl, by simp, hb⟩
    · have hrest : ¬∀ c ∈ fl, ¬c.Fits size align := fun h => hfits (by simpa [hb] using h)
      obtain ⟨l, c, r, rfl, hl, hc⟩ := ih hrest
      exact ⟨b :: l, c, r, rfl, by simpa [hb] using hl, hc⟩

theorem firstFit_eq_some (h : firstFit size align fl = some (b, fl')) :
    ∃ l r, fl = l ++ b :: r ∧ b.Fits size align ∧
      fl' = l ++ b.rest (b.payload align + size) ++ r := by
  have hfits : ¬∀ c ∈ fl, ¬c.Fits size align := by
    intro hnone
    rw [firstFit_eq_none.mpr hnone] at h
    cases h
  obtain ⟨l, c, r, rfl, hl, hc⟩ := exists_first hfits
  rw [firstFit_append hl hc] at h
  cases h
  exact ⟨l, r, rfl, hc, rfl⟩

theorem withRight_of_adjacent (hl : ∀ c ∈ l, c.addr ≠ B.end) (hR : R.addr = B.end) :
    B.withRight (l ++ R :: r) = ⟨B.addr, B.size + R.size⟩ := by
  have hfind : (l ++ R :: r).find? (·.addr == B.end) = some R := by
    rw [List.find?_append, List.find?_eq_none.mpr (by simpa using hl)]
    simp [hR]
  simp [Block.withRight, hfind]

theorem withRight_of_forall (hfl : ∀ c ∈ fl, c.addr ≠ B.end) : B.withRight fl = B := by
  have hfind : fl.find? (·.addr == B.end) = none := List.find?_eq_none.mpr (by simpa using hfl)
  simp [Block.withRight, hfind]

theorem eraseP_of_adjacent (hl : ∀ c ∈ l, c.addr ≠ B.end) (hR : R.addr = B.end) :
    (l ++ R :: r).eraseP (·.addr == B.end) = l ++ r := by
  rw [List.eraseP_append_right _ (by simpa using hl)]
  simp [hR]

theorem eraseP_of_forall (hfl : ∀ c ∈ fl, c.addr ≠ B.end) :
    fl.eraseP (·.addr == B.end) = fl := List.eraseP_of_forall_not (by simpa using hfl)

theorem absorb_of_adjacent (hl : ∀ c ∈ l ++ r, c.end ≠ B.addr) (hL : L.end = B.addr) :
    absorb (l ++ L :: r) B = l ++ ⟨L.addr, L.size + B.size⟩ :: r := by
  have hkeep : ∀ {m : List Block}, (∀ c ∈ m, c.end ≠ B.addr) →
      m.map (fun L => if L.end = B.addr then ⟨L.addr, L.size + B.size⟩ else L) = m := by
    intro m hm
    conv_rhs => rw [← List.map_id m]
    exact List.map_congr_left fun c hc => if_neg (hm c hc)
  have hany : (l ++ L :: r).any (·.end == B.addr) = true := by simp [hL]
  rw [absorb, if_pos hany, List.map_append, List.map_cons, if_pos hL,
    hkeep fun c hc => hl c (List.mem_append_left _ hc),
    hkeep fun c hc => hl c (List.mem_append_right _ hc)]

theorem absorb_of_forall (hfl : ∀ c ∈ fl, c.end ≠ B.addr) : absorb fl B = B :: fl := by
  rw [absorb, if_neg (by simpa using hfl)]

theorem Coalesced.mono (h : Coalesced fl) (hsub : fl' ⊆ fl) : Coalesced fl' :=
  fun b hb c hc => h b (hsub hb) c (hsub hc)

theorem Coalesced.absorb (h : Coalesced fl) (hright : ∀ c ∈ fl, c.addr ≠ B.end)
    (hB : B.addr ≠ B.end) : Coalesced (absorb fl B) := by
  unfold FerricK.Heap.absorb
  split
  · -- the grown block starts where `L` did and ends where `B` does
    have hstep : ∀ L ∈ fl, ∀ d ∈ fl,
        (if L.end = B.addr then (⟨L.addr, L.size + B.size⟩ : Block) else L).end ≠ d.addr := by
      intro L hL d hd
      split
      · next hend =>
        have hgrown : (⟨L.addr, L.size + B.size⟩ : Block).end = B.end := by
          simp only [Block.end] at *
          omega
        rw [hgrown]
        exact (hright d hd).symm
      · exact h L hL d hd
    have haddr : ∀ d : Block,
        (if d.end = B.addr then (⟨d.addr, d.size + B.size⟩ : Block) else d).addr = d.addr := by
      intro d
      split <;> rfl
    intro b hb c hc
    obtain ⟨L, hL, rfl⟩ := List.mem_map.mp hb
    obtain ⟨d, hd, rfl⟩ := List.mem_map.mp hc
    rw [haddr]
    exact hstep L hL d hd
  · next hany =>
    have hleft : ∀ c ∈ fl, c.end ≠ B.addr := by simpa using hany
    intro b hb c hc
    rcases List.mem_cons.mp hb with rfl | hb' <;> rcases List.mem_cons.mp hc with rfl | hc'
    · exact hB.symm
    · exact (hright c hc').symm
    · exact hleft b hb'
    · exact h b hb' c hc'

end FerricK.Heap
