import FerricK.Heap.Alloc
import FerricK.Lib.Lists

namespace FerricK.Heap

open Rust LinkedList

def lastAddr (p : Block → Prop) [DecidablePred p] (a : Nat) (fl : List Block) : Nat :=
  fl.foldl (fun a b => if p b then b.addr else a) a

variable {s s' : State} {fl held l r done : List Block} {b c B L R : Block}
  {size align payload a : Nat} {p : Block → Prop} [DecidablePred p]

theorem lastAddr_of_forall (hl : ∀ c ∈ l, ¬p c) (a : Nat) : lastAddr p a l = a := by
  induction l generalizing a with
  | nil => rfl
  | cons c l ih =>
    obtain ⟨hc, hl⟩ := List.forall_mem_cons.mp hl
    simp only [lastAddr, List.foldl_cons, if_neg hc]
    exact ih hl a

theorem lastAddr_append (a : Nat) : lastAddr p a (l ++ r) = lastAddr p (lastAddr p a l) r :=
  List.foldl_append

theorem lastAddr_of_unique (hr : ∀ c ∈ r, ¬p c) (hb : p b) (a : Nat) :
    lastAddr p a (l ++ b :: r) = b.addr := by
  rw [lastAddr_append, lastAddr, List.foldl_cons, if_pos hb]
  exact lastAddr_of_forall hr _

theorem lastAddr_of_not (hb : ¬p b) (a : Nat) :
    lastAddr p a (l ++ b :: r) = lastAddr p a (l ++ r) := by
  rw [lastAddr_append, lastAddr_append]
  simp [lastAddr, hb]

theorem neighbours_eq (h : Core s (done ++ l) held) (hfuel : l.length < fuel)
    (blockAddr blockEnd left right : Nat) :
    neighbours s.mem blockAddr blockEnd fuel ((l.map Block.addr).headD 0) left right =
      .ok (lastAddr (·.end = blockAddr) left l, lastAddr (·.addr = blockEnd) right l) := by
  induction l generalizing done fuel left right with
  | nil =>
    cases fuel with
    | zero => omega
    | succ fuel => simp [neighbours, lastAddr]
  | cons b l ih =>
    cases fuel with
    | zero => omega
    | succ fuel =>
      have hb : b ∈ done ++ b :: l ++ held := by simp
      have hnode := h.node hb
      have hwithin := h.within hb
      have hend := h.end_lt
      have hbend : b.end = b.addr + b.size := rfl
      have hsum := uadd_of_lt (w := 64) (a := b.addr) (b := b.size) (by omega)
      simp only [List.length_cons] at hfuel
      simp only [List.map_cons, List.headD_cons, neighbours, if_neg hnode.1, get_of_node hnode,
        h.sizes b hb, ok_bind, hsum, h.next_eq, ← hbend]
      exact ih (show Core s (done ++ [b] ++ l) held by simpa using h) (by omega) _ _

namespace Core

theorem forall_ne_end (h : Core s (l ++ b :: r) held) : ∀ c ∈ l ++ r, c.end ≠ b.end := by
  intro c hc heq
  have hne : c ≠ b := fun he => h.not_mem_held (List.mem_append_left _ (he ▸ hc))
  have hc' : c ∈ l ++ b :: r ++ held := List.mem_append_left _ (mem_of_mem_sides hc)
  have hb : b ∈ l ++ b :: r ++ held := by simp
  have hlt := (h.shape c hc').lt
  have hlt' := (h.shape b hb).lt
  have := h.apart hc' hb hne
  omega

theorem forall_ne_addr (h : Core s (l ++ b :: r) held) : ∀ c ∈ l ++ r, c.addr ≠ b.addr := by
  intro c hc heq
  have hne : c ≠ b := fun he => h.not_mem_held (List.mem_append_left _ (he ▸ hc))
  exact hne (h.eq_of_addr (List.mem_append_left _ (mem_of_mem_sides hc)) (by simp) heq)

theorem find_addr (h : Core s fl held) (a : Nat) :
    (∃ l b r, fl = l ++ b :: r ∧ b.addr = a ∧ ∀ c ∈ l ++ r, c.addr ≠ a) ∨
      ∀ c ∈ fl, c.addr ≠ a :=
  Lists.split_at_key Block.addr (fun _ _ _ hfl => (hfl ▸ h).forall_ne_addr) a

theorem find_end (h : Core s fl held) (e : Nat) :
    (∃ l b r, fl = l ++ b :: r ∧ b.end = e ∧ ∀ c ∈ l ++ r, c.end ≠ e) ∨ ∀ c ∈ fl, c.end ≠ e :=
  Lists.split_at_key Block.end (fun _ _ _ hfl => (hfl ▸ h).forall_ne_end) e

end Core

theorem mergeRight_spec (h : Core s fl (B :: held)) :
    ∃ s', mergeRight s B.addr (lastAddr (·.addr = B.end) 0 fl) = .ok s' ∧
      Core s' (fl.eraseP (·.addr == B.end)) (B.withRight fl :: held) ∧ Untouched s s' held := by
  obtain ⟨l, R, r, rfl, hadj, hne⟩ | hne := h.find_addr B.end
  · have hl := fun c hc => hne c (List.mem_append_left _ hc)
    obtain ⟨s', hs', hcore, hunt⟩ := h.absorbRight hadj.symm
    refine ⟨s', ?_, ?_, hunt⟩
    · have hnode := h.node (b := R) (by simp)
      rw [lastAddr_of_unique (fun c hc => hne c (List.mem_append_right _ hc)) hadj, mergeRight,
        if_pos hnode.1]
      exact hs'
    · rw [eraseP_of_adjacent hl hadj, withRight_of_adjacent hl hadj]
      exact hcore
  · refine ⟨s, ?_, ?_, Untouched.refl s held⟩
    · simp [lastAddr_of_forall hne, mergeRight]
    · rw [eraseP_of_forall hne, withRight_of_forall hne]
      exact h

theorem mergeLeft_spec (h : Core s fl (B :: held)) :
    ∃ s', mergeLeft s B.addr (lastAddr (·.end = B.addr) 0 fl) = .ok s' ∧
      Core s' (absorb fl B) held ∧ Untouched s s' held := by
  obtain ⟨l, L, r, rfl, hadj, hne⟩ | hne := h.find_end B.addr
  · obtain ⟨s', hs', hcore, hunt⟩ := h.absorbLeft hadj
    refine ⟨s', ?_, ?_, hunt⟩
    · have hnode := h.node (b := L) (by simp)
      rw [lastAddr_of_unique (fun c hc => hne c (List.mem_append_right _ hc)) hadj, mergeLeft,
        if_pos hnode.1]
      exact hs'
    · rw [absorb_of_adjacent hne hadj]
      exact hcore
  · obtain ⟨s', hs', hcore, hunt⟩ := h.prepend
    refine ⟨s', ?_, ?_, hunt⟩
    · simp only [lastAddr_of_forall hne, mergeLeft, ne_eq, not_true_eq_false, ↓reduceIte]
      exact hs'
    · rw [absorb_of_forall hne]
      exact hcore

/-- The right neighbour is no left neighbour, so merging it leaves that one to be found. -/
theorem lastAddr_eraseP (h : Core s fl (B :: held)) :
    lastAddr (·.end = B.addr) 0 (fl.eraseP (·.addr == B.end)) =
      lastAddr (·.end = B.addr) 0 fl := by
  obtain ⟨l, R, r, rfl, hadj, hne⟩ | hne := h.find_addr B.end
  · rw [eraseP_of_adjacent (fun c hc => hne c (List.mem_append_left _ hc)) hadj]
    refine (lastAddr_of_not ?_ 0).symm
    have hRlt := (h.shape R (by simp)).lt
    have hBlt := (h.shape B (by simp)).lt
    omega
  · rw [eraseP_of_forall hne]

theorem Core.coalesced_release (h : Core s fl (B :: held)) (hco : Coalesced fl) :
    Coalesced (release fl B) := by
  have hBlt := (h.shape B (by simp)).lt
  have hco' : Coalesced (fl.eraseP (·.addr == B.end)) := hco.mono List.eraseP_subset
  obtain ⟨l, R, r, rfl, hadj, hne⟩ | hne := h.find_addr B.end
  · have hl := fun c hc => hne c (List.mem_append_left _ hc)
    have hend : (⟨B.addr, B.size + R.size⟩ : Block).end = R.end := by
      simp only [Block.end] at *
      omega
    have hRlt := (h.shape R (by simp)).lt
    rw [release, withRight_of_adjacent hl hadj, eraseP_of_adjacent hl hadj]
    refine (hco.mono fun c => Core.mem_of_mem_sides).absorb ?_ ?_
    · rw [hend]
      exact fun c hc => (hco R (by simp) c (Core.mem_of_mem_sides hc)).symm
    · rw [hend]
      simp only
      omega
  · rw [release, withRight_of_forall hne, eraseP_of_forall hne]
    exact hco.absorb hne hBlt.ne

/-- The slot is the distance from the end of the header to the payload. -/
def Slot (s : State) (b : Block) (payload : Nat) : Prop :=
  Bytes.loadWord s.mem (payload - headerGap) = payload - headerSize - b.addr

/-- The slot leads back to the header, whatever the alignment put between them. -/
theorem blockAddr_spec (hpos : 0 < B.addr) (hhost : B.Hosts payload size)
    (hslot : Slot s B payload) (hB : B.addr % 8 = 0) : blockAddr s payload = .ok B.addr := by
  have hlow := hhost.low
  have hword := hhost.word
  simp only [headerSize, headerGap] at hlow
  have hderef : deref (payload - headerGap) = .ok () :=
    deref_of_node (by simp only [headerGap]; omega)
  rw [blockAddr, usub_of_le (by simp only [headerGap]; omega), ok_bind, hderef, ok_bind,
    usub_of_le (by simp only [headerSize]; omega), ok_bind, hslot, usub_of_le (Nat.sub_le _ _),
    Nat.sub_sub_self (by simp only [headerSize]; omega)]

theorem giveBack_spec (h : Core s fl (B :: held)) :
    ∃ s', giveBack s B.addr = .ok s' ∧ Core s' (release fl B) held ∧ Untouched s s' held := by
  have hB : B ∈ fl ++ B :: held := by simp
  have hwithin := h.within hB
  have hend := h.end_lt
  have hBend : B.addr + B.size = B.end := rfl
  have hwalk := neighbours_eq (show Core s ([] ++ fl) (B :: held) by simpa using h) h.length_lt_fuel
    B.addr B.end 0 0
  rw [← h.links.front.head] at hwalk
  change neighbours s.mem B.addr B.end s.fuel s.free 0 0 = _ at hwalk
  obtain ⟨s₁, hs₁, hcore₁, hunt₁⟩ := mergeRight_spec h
  obtain ⟨s₂, hs₂, hcore₂, hunt₂⟩ := mergeLeft_spec hcore₁
  have haddr : (B.withRight fl).addr = B.addr := rfl
  rw [haddr, lastAddr_eraseP h] at hs₂
  refine ⟨s₂, ?_, hcore₂, hunt₁.trans hunt₂⟩
  rw [giveBack, get_of_node (h.node hB), ok_bind, h.sizes B hB, uadd_of_lt (by omega), ok_bind,
    hBend, hwalk, ok_bind]
  exact bind_eq_ok.mpr ⟨s₁, hs₁, hs₂⟩

theorem dealloc_spec (h : Core s fl (B :: held)) (hhost : B.Hosts payload size) (hsize : 0 < size)
    (hslot : Slot s B payload) :
    ∃ s', dealloc s payload = .ok s' ∧ Core s' (release fl B) held ∧ Untouched s s' held := by
  have hB : B ∈ fl ++ B :: held := by simp
  have hwithin := h.within hB
  have hend := h.end_lt
  have hnode := h.node hB
  have hlt := (h.shape B hB).lt
  have hlow := hhost.low
  have hhigh := hhost.high
  simp only [headerSize, headerGap] at hlow
  obtain ⟨s', hs', hcore, hunt⟩ := giveBack_spec h
  refine ⟨s', ?_, hcore, hunt⟩
  rw [dealloc, if_neg (by omega), uadd_of_lt (by simp only [headerSize]; omega), ok_bind,
    if_neg (by simp only [headerSize]; omega),
    blockAddr_spec (by omega) hhost hslot hnode.2, ok_bind, if_neg (by omega), hs']

end FerricK.Heap
