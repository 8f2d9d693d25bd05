import FerricK.Heap.Alloc

namespace FerricK.Heap

open Rust

def State.fresh (m : Mem) (start «end» : Nat) : State :=
  (((State.mk m start start «end»).put start .size («end» - start)).put start .next 0).put start
    .prev 0

/-- The region is too short once it is rounded, or runs out of the address space. -/
def Unusable (start size : Nat) : Prop :=
  2 ^ 64 ≤ Align.up start 8 + size ∨ size < minBlock

instance (start size : Nat) : Decidable (Unusable start size) := inferInstanceAs (Decidable (_ ∨ _))

variable {s s₀ : State} {start size : Nat}

/-- The start is rounded up before the size is added, and the end down after. -/
theorem init_eq (s : State) (start size : Nat) : init s start size =
    if 2 ^ 64 ≤ start + 7 then .error .overflow
    else if Unusable start size then .ok (false, s)
    else if Align.up start 8 = 0 then .error .deref
    else .ok (true, .fresh s.mem (Align.up start 8) (Align.up start 8 + size / 8 * 8)) := by
  by_cases hstart : 2 ^ 64 ≤ start + 7
  · have hround : alignUp start 8 = .error .overflow := alignUp_overflow (k := 3) rfl hstart
    rw [init, hround, error_bind, if_pos hstart]
  rw [init, alignUp_eight (by omega), ok_bind, if_neg hstart]
  have hword : Align.up start 8 % 8 = 0 := Nat.mod_eq_zero_of_dvd (Align.dvd_up _ _)
  by_cases hover : 2 ^ 64 ≤ Align.up start 8 + size
  · have hadd : checkedAdd 64 (Align.up start 8) size = none := if_neg (by omega)
    have hunusable : Unusable start size := Or.inl hover
    rw [hadd, if_pos hunusable]
    rfl
  have hadd : checkedAdd 64 (Align.up start 8) size = some (Align.up start 8 + size) :=
    if_pos (by omega)
  have hmask : (Align.up start 8 + size) &&& unot 64 7 = Align.up start 8 + size / 8 * 8 := by
    have hdown := Align.and_unot_mask (k := 3) (show Align.up start 8 + size < 2 ^ 64 by omega)
      (by omega)
    simp only [Nat.reducePow, Nat.reduceSub] at hdown
    omega
  rw [hadd]
  simp only [hmask]
  rw [usub_of_le (Nat.le_add_right _ _), ok_bind]
  by_cases hmin : size < minBlock
  · have hunusable : Unusable start size := Or.inr hmin
    rw [if_pos (by simp only [minBlock, headerSize] at *; omega), if_pos hunusable, pure_eq_ok]
  have husable : ¬Unusable start size := not_or.mpr ⟨hover, hmin⟩
  rw [if_neg (by simp only [minBlock, headerSize] at *; omega), if_neg husable]
  by_cases hnull : Align.up start 8 = 0
  · have hderef : deref (Align.up start 8) = .error .deref := if_pos (Or.inl hnull)
    rw [if_pos hnull, set, hderef]
    rfl
  · rw [if_neg hnull]
    simp only [set_of_node ⟨hnull, hword⟩, ok_bind, pure_eq_ok]
    rfl

theorem fresh_fields {m : Mem} {start e : Nat} (hnode : start ≠ 0 ∧ start % 8 = 0)
    (he : e < 2 ^ 64) :
    (State.fresh m start e).field .size start = e - start ∧
      (State.fresh m start e).field .next start = 0 ∧
      (State.fresh m start e).field .prev start = 0 := by
  have hsep : Separated [start] := ⟨by simpa using hnode, by simp⟩
  have hmem : start ∈ [start] := List.mem_singleton_self start
  have h₁ := (Holds.self [start] (State.mk m start start e)).put_size hsep hmem (v := e - start)
    (by omega)
  have h₂ := h₁.put_next hsep hmem (v := 0) (by omega)
  have h₃ := h₂.put_prev hsep hmem (v := 0) (by omega)
  exact ⟨(h₃.size start hmem).trans (Function.update_self ..),
    (h₃.next start hmem).trans (Function.update_self ..),
    (h₃.prev start hmem).trans (Function.update_self ..)⟩

theorem init_cases (h : init s₀ start size = .ok (true, s)) :
    start + 7 < 2 ^ 64 ∧ ¬Unusable start size ∧ Align.up start 8 ≠ 0 ∧
      s = .fresh s₀.mem (Align.up start 8) (Align.up start 8 + size / 8 * 8) := by
  rw [init_eq] at h
  split at h
  · cases h
  next hstart =>
  split at h
  · cases h
  next husable =>
  split at h
  · cases h
  next hnull =>
  cases h
  exact ⟨Nat.not_le.mp hstart, husable, hnull, rfl⟩

theorem init_fields (h : init s₀ start size = .ok (true, s)) :
    (s.start ≠ 0 ∧ s.start % 8 = 0) ∧ s.end % 8 = 0 ∧ s.start + minBlock ≤ s.end ∧
      s.end < 2 ^ 64 ∧ s.free = s.start ∧ s.field .size s.start = s.end - s.start ∧
      s.field .next s.start = 0 ∧ s.field .prev s.start = 0 := by
  obtain ⟨-, husable, hnull, rfl⟩ := init_cases h
  obtain ⟨hover, hmin⟩ := not_or.mp husable
  have hword : Align.up start 8 % 8 = 0 := Nat.mod_eq_zero_of_dvd (Align.dvd_up _ _)
  have hend : Align.up start 8 + size / 8 * 8 < 2 ^ 64 := by omega
  refine ⟨⟨hnull, hword⟩, ?_, ?_, hend, rfl, fresh_fields ⟨hnull, hword⟩ hend⟩
  · change (Align.up start 8 + size / 8 * 8) % 8 = 0
    omega
  · change Align.up start 8 + minBlock ≤ Align.up start 8 + size / 8 * 8
    simp only [minBlock, headerSize] at hmin ⊢
    omega

/-- `init` refuses the region and leaves the heap, or keeps to it, in whole words. -/
def Contained (s : State) (start size : Nat) : Prop :=
  init s start size = .ok (false, s) ∨ ∃ s', init s start size = .ok (true, s') ∧
    s'.start % 8 = 0 ∧ s'.end % 8 = 0 ∧ s'.start + minBlock ≤ s'.end ∧
    start ≤ s'.start ∧ s'.end ≤ start + size

/-- Rounding the start up overruns the end, unless what is lost of the size makes up for it. -/
theorem contained_iff (s : State) (start size : Nat) : Contained s start size ↔
    start + 7 < 2 ^ 64 ∧
      (Unusable start size ∨ start ≠ 0 ∧ (8 - start % 8) % 8 ≤ size % 8) := by
  have hpad : Align.up start 8 = start + (8 - start % 8) % 8 := by
    rw [Align.up]
    omega
  rw [Contained, init_eq]
  by_cases hstart : 2 ^ 64 ≤ start + 7
  · rw [if_pos hstart]
    constructor
    · rintro (h | ⟨s', h, -⟩) <;> cases h
    · rintro ⟨hlt, -⟩
      omega
  by_cases hunusable : Unusable start size
  · rw [if_neg hstart, if_pos hunusable]
    exact ⟨fun _ => ⟨Nat.not_le.mp hstart, Or.inl hunusable⟩, fun _ => Or.inl rfl⟩
  rw [if_neg hstart, if_neg hunusable]
  obtain ⟨-, hmin⟩ := not_or.mp hunusable
  by_cases hnull : Align.up start 8 = 0
  · rw [if_pos hnull]
    constructor
    · rintro (h | ⟨s', h, -⟩) <;> cases h
    · rintro ⟨-, hun | ⟨hpos, -⟩⟩
      · exact absurd hun hunusable
      · omega
  rw [if_neg hnull]
  constructor
  · rintro (hfalse | ⟨s', hs', -, -, -, -, hend⟩)
    · cases hfalse
    · cases hs'
      simp only [State.fresh, State.put] at hend
      omega
  · rintro ⟨-, hun | ⟨-, hroom⟩⟩
    · exact absurd hun hunusable
    · refine Or.inr ⟨_, rfl, ?_⟩
      simp only [State.fresh, State.put]
      simp only [minBlock, headerSize] at hmin ⊢
      omega

/-- Eight-aligned, 56 bytes from an odd address run seven bytes over. -/
theorem not_contained : ∃ s', init ⟨fun _ => 0, 0, 0, 0⟩ 4097 56 = .ok (true, s') ∧
    s'.start = 4104 ∧ s'.end = 4160 ∧ ¬Contained ⟨fun _ => 0, 0, 0, 0⟩ 4097 56 := by
  obtain ⟨s', hs', hstart, hend⟩ : ∃ s', init ⟨fun _ => 0, 0, 0, 0⟩ 4097 56 = .ok (true, s') ∧
      s'.start = 4104 ∧ s'.end = 4160 := ⟨_, rfl, rfl, rfl⟩
  refine ⟨s', hs', hstart, hend, ?_⟩
  rintro (hfalse | ⟨s'', hs'', -, -, -, -, hwithin⟩)
  · rw [hs'] at hfalse
    cases hfalse
  · rw [hs'] at hs''
    cases hs''
    omega

end FerricK.Heap
