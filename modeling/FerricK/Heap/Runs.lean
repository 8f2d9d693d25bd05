import FerricK.Heap.Dealloc
import FerricK.Heap.Init

namespace FerricK.Heap

open Rust LinkedList Tiling

def blockBounds (s : State) (payload : Nat) : Block :=
  let addr := payload - headerSize - Bytes.loadWord s.mem (payload - headerGap)
  ⟨addr, s.field .size addr⟩

structure Live where
  payload : Nat
  layout : Layout
  block : Block

def Live.size (a : Live) : Nat := max a.layout.size 1

def Live.span (a : Live) : Nat × Nat := (a.payload, a.payload + a.size)

/-- The states a heap reaches, each with its live allocations: what `init` accepts, and from
there any order of calls and of client writes to live payloads. -/
inductive Reachable : State → List Live → Prop
  | init : Heap.init s₀ start size = .ok (true, s) → Reachable s []
  | alloc : Reachable s live → s.end + layout.align < 2 ^ 64 →
      Heap.alloc s layout = .ok (p, s') → p ≠ 0 →
      Reachable s' (⟨p, layout, blockBounds s' p⟩ :: live)
  | exhausted : Reachable s live → s.end + layout.align < 2 ^ 64 →
      Heap.alloc s layout = .ok (0, s') → Reachable s' live
  | dealloc : Reachable s (l ++ a :: r) → Heap.dealloc s a.payload = .ok s' →
      Reachable s' (l ++ r)
  | write : Reachable s live → a ∈ live → a.payload ≤ x → x < a.payload + a.size →
      Reachable { s with mem := Function.update s.mem x v } live

/-- The states a heap reaches by any calls that return, however large their alignments. -/
inductive Used : State → List Live → Prop
  | init : Heap.init s₀ start size = .ok (true, s) → Used s []
  | alloc : Used s live → Heap.alloc s layout = .ok (p, s') → p ≠ 0 →
      Used s' (⟨p, layout, blockBounds s' p⟩ :: live)
  | exhausted : Used s live → Heap.alloc s layout = .ok (0, s') → Used s' live
  | dealloc : Used s (l ++ a :: r) → Heap.dealloc s a.payload = .ok s' → Used s' (l ++ r)
  | write : Used s live → a ∈ live → a.payload ≤ x → x < a.payload + a.size →
      Used { s with mem := Function.update s.mem x v } live

structure Invariant (s : State) (live : List Live) (fl : List Block) : Prop where
  core : Core s fl (live.map Live.block)
  bounds : s.start < s.end
  coalesced : Coalesced fl
  hosts : ∀ a ∈ live, a.block.Hosts a.payload a.size
  aligned : ∀ a ∈ live, a.layout.align ∣ a.payload
  slots : ∀ a ∈ live, Slot s a.block a.payload

variable {s s' s₀ : State} {fl fl' held : List Block} {B : Block} {a b : Live}
  {live live' l r : List Live} {layout : Layout} {start size payload p x : Nat} {v : UInt8}

theorem Live.size_pos (a : Live) : 0 < a.size := Nat.lt_of_lt_of_le Nat.one_pos (le_max_right _ _)

theorem Untouched.slot (h : Untouched s s' held) (hB : B ∈ held) (hhost : B.Hosts payload size) :
    Slot s' B payload ↔ Slot s B payload := by
  have hlow := hhost.low
  have hhigh := hhost.high
  simp only [headerSize, headerGap] at hlow
  have hload : Bytes.loadWord s'.mem (payload - headerGap) =
      Bytes.loadWord s.mem (payload - headerGap) := by
    apply Bytes.loadWord_congr
    intro x hx
    rw [Bytes.mem_span_nat] at hx
    simp only [headerGap] at hx
    exact h.mem B hB x (by omega) (by omega)
  rw [Slot, Slot, hload]

theorem Core.perm_held (h : Core s fl held) {held' : List Block} (hperm : held.Perm held') :
    Core s fl held' := by
  have hall : (fl ++ held).Perm (fl ++ held') := hperm.append_left fl
  exact ⟨h.start_pos, h.end_lt, fun b hb => h.shape b (hall.mem_iff.mpr hb),
    fun b hb => h.sizes b (hall.mem_iff.mpr hb), h.links, Core.Tiles.extents h.tiles hall⟩

theorem blockBounds_eq (hhost : B.Hosts payload size) (hslot : Slot s B payload)
    (hsize : s.field .size B.addr = B.size) : blockBounds s payload = B := by
  have hlow := hhost.low
  have haddr : payload - headerSize - (payload - headerSize - B.addr) = B.addr :=
    Nat.sub_sub_self (by simp only [headerSize, headerGap] at *; omega)
  simp only [blockBounds, show Bytes.loadWord s.mem (payload - headerGap) = _ from hslot, haddr,
    hsize]

namespace Invariant

theorem perm (h : Invariant s live fl) (hperm : live.Perm live') : Invariant s live' fl where
  core := h.core.perm_held (hperm.map _)
  bounds := h.bounds
  coalesced := h.coalesced
  hosts a ha := h.hosts a (hperm.mem_iff.mpr ha)
  aligned a ha := h.aligned a (hperm.mem_iff.mpr ha)
  slots a ha := h.slots a (hperm.mem_iff.mpr ha)

theorem block_inj (h : Invariant s live fl) (ha : a ∈ live) (hb : b ∈ live)
    (heq : a.block = b.block) : a = b :=
  List.inj_on_of_nodup_map (List.nodup_append.mp h.core.nodup).2.1 ha hb heq

theorem mem_held (ha : a ∈ live) : a.block ∈ fl ++ live.map Live.block :=
  List.mem_append_right _ (List.mem_map_of_mem ha)

theorem bounds_eq (h : Invariant s live fl) (ha : a ∈ live) :
    blockBounds s a.payload = a.block :=
  blockBounds_eq (h.hosts a ha) (h.slots a ha) (h.core.sizes _ (mem_held ha))

end Invariant

theorem init_spec (h : init s₀ start size = .ok (true, s)) :
    Invariant s [] [⟨s.start, s.end - s.start⟩] := by
  obtain ⟨hnode, he, hmin, hlt, hfree, hsize, hnext, hprev⟩ := init_fields h
  simp only [minBlock, headerSize] at hmin
  have hcore : Core s [⟨s.start, s.end - s.start⟩] [] := by
    refine ⟨Nat.pos_of_ne_zero hnode.1, hlt, ?_, ?_, ?_, ?_⟩
    · simp only [List.append_nil, List.mem_singleton, forall_eq]
      refine ⟨hnode.2, ?_, ?_⟩ <;> simp only [headerSize, headerGap] <;> omega
    · simpa using hsize
    · exact ⟨⟨hfree, hprev, hnext, trivial⟩, by simpa using hnode.1.symm, by simp⟩
    · have hend : (⟨s.start, s.end - s.start⟩ : Block).extent = (s.start, s.end) := by
        simp only [Block.extent, Block.end, Prod.mk.injEq, true_and]
        omega
      have hsingle : Tiles s.start s.end [(s.start, s.end)] := Tiles.singleton (by omega)
      rw [← hend] at hsingle
      exact hsingle
  refine ⟨hcore, by omega, ?_, by simp, by simp, by simp⟩
  simp only [Coalesced, List.mem_singleton, forall_eq, Block.end]
  omega

namespace Invariant

theorem alloc (h : Invariant s live fl) (layout : Layout)
    (hwrap : NoWrap (max layout.size 1) layout.align fl) :
    (firstFit (max layout.size 1) layout.align fl = none ∧ Heap.alloc s layout = .ok (0, s)) ∨
    ∃ b fl' p s', firstFit (max layout.size 1) layout.align fl = some (b, fl') ∧
      p = b.payload layout.align ∧ Heap.alloc s layout = .ok (p, s') ∧ p ≠ 0 ∧
      blockBounds s' p = b.front (p + max layout.size 1) ∧
      Invariant s' (⟨p, layout, blockBounds s' p⟩ :: live) fl' ∧
      Untouched s s' (live.map Live.block) := by
  rcases alloc_spec h.core layout hwrap with hnone | ⟨b, fl', s', hfirst, hs', hhost, hcore, hco,
    hunt, hslot⟩
  · exact Or.inl hnone
  · have hfront := hhost.front
    have hslot' : Slot s' (b.front (b.payload layout.align + max layout.size 1))
        (b.payload layout.align) := by
      rw [Slot, front_addr]
      exact hslot
    have hbounds := blockBounds_eq hfront hslot' (hcore.sizes _ (by simp))
    refine Or.inr ⟨b, fl', _, s', hfirst, rfl, hs', ?_, hbounds, ?_, hunt⟩
    · have := hhost.low
      simp only [headerSize] at this
      omega
    · refine ⟨?_, ?_, hco h.coalesced, ?_, ?_, ?_⟩
      · rw [List.map_cons, hbounds]
        exact hcore
      · rw [hunt.start, hunt.end]
        exact h.bounds
      · refine List.forall_mem_cons.mpr ⟨?_, h.hosts⟩
        rw [hbounds]
        exact hfront
      · exact List.forall_mem_cons.mpr ⟨Align.dvd_up _ _, h.aligned⟩
      · refine List.forall_mem_cons.mpr ⟨?_, fun a ha => ?_⟩
        · rw [hbounds]
          exact hslot'
        · exact (hunt.slot (List.mem_map_of_mem ha) (h.hosts a ha)).mpr (h.slots a ha)

theorem noWrap_of_ok {r : Nat × State} (h : Invariant s live fl)
    (halloc : Heap.alloc s layout = .ok r) : NoWrap (max layout.size 1) layout.align fl := by
  by_contra hwrap
  rw [alloc_overflow h.core layout hwrap] at halloc
  cases halloc

theorem alloc_cases {p : Nat} (h : Invariant s live fl)
    (halloc : Heap.alloc s layout = .ok (p, s')) : Untouched s s' (live.map Live.block) ∧
      ((p = 0 ∧ s' = s ∧ firstFit (max layout.size 1) layout.align fl = none) ∨
      (p ≠ 0 ∧ ∃ b fl', firstFit (max layout.size 1) layout.align fl = some (b, fl') ∧
        p = b.payload layout.align ∧ blockBounds s' p = b.front (p + max layout.size 1) ∧
        Invariant s' (⟨p, layout, blockBounds s' p⟩ :: live) fl')) := by
  rcases h.alloc layout (h.noWrap_of_ok halloc) with ⟨hnofit, hnone⟩ |
    ⟨b, fl', p', t, hfirst, hpayload, ht, hp, hbounds, hinv, hunt⟩
  · rw [hnone] at halloc
    cases halloc
    exact ⟨Untouched.refl s _, Or.inl ⟨rfl, rfl, hnofit⟩⟩
  · rw [ht] at halloc
    cases halloc
    exact ⟨hunt, Or.inr ⟨hp, b, fl', hfirst, hpayload, hbounds, hinv⟩⟩

theorem dealloc (h : Invariant s (a :: live) fl) :
    ∃ s', Heap.dealloc s a.payload = .ok s' ∧ Invariant s' live (release fl a.block) ∧
      Untouched s s' (live.map Live.block) := by
  obtain ⟨s', hs', hcore, hunt⟩ := dealloc_spec h.core (h.hosts a (by simp)) a.size_pos
    (h.slots a (by simp))
  refine ⟨s', hs', ⟨hcore, ?_, h.core.coalesced_release h.coalesced, ?_, ?_, ?_⟩, hunt⟩
  · rw [hunt.start, hunt.end]
    exact h.bounds
  · exact fun b hb => h.hosts b (List.mem_cons_of_mem _ hb)
  · exact fun b hb => h.aligned b (List.mem_cons_of_mem _ hb)
  · intro b hb
    have hb' := List.mem_cons_of_mem a hb
    exact (hunt.slot (List.mem_map_of_mem hb) (h.hosts b hb')).mpr (h.slots b hb')

theorem dealloc_cases {l r : List Live} (h : Invariant s (l ++ a :: r) fl)
    (hdealloc : Heap.dealloc s a.payload = .ok s') :
    Invariant s' (l ++ r) (release fl a.block) ∧ Untouched s s' ((l ++ r).map Live.block) := by
  obtain ⟨t, ht, hinv, hunt⟩ := (h.perm List.perm_middle).dealloc
  rw [ht] at hdealloc
  cases hdealloc
  exact ⟨hinv, hunt⟩

theorem write (h : Invariant s live fl) (ha : a ∈ live) (hlow : a.payload ≤ x)
    (hhigh : x < a.payload + a.size) (v : UInt8) :
    Invariant { s with mem := Function.update s.mem x v } live fl := by
  have hhost := h.hosts a ha
  have hpay := hhost.low
  have hend := hhost.high
  simp only [headerSize, headerGap] at hpay
  have hheader : ∀ b ∈ fl ++ live.map Live.block, ¬(b.addr ≤ x ∧ x < b.addr + headerSize) := by
    intro b hb
    have hroom := (h.core.shape b hb).room
    simp only [headerSize, headerGap] at hroom ⊢
    rcases eq_or_ne a.block b with rfl | hne
    · omega
    · have := h.core.apart (mem_held ha) hb hne
      simp only [Block.end] at *
      omega
  have hslot : ∀ b ∈ live, ¬(b.payload - headerGap ≤ x ∧ x < b.payload) := by
    intro b hb
    have hlow' := (h.hosts b hb).low
    have hhigh' := (h.hosts b hb).high
    simp only [headerSize, headerGap] at hlow' ⊢
    rcases eq_or_ne a b with rfl | hne
    · omega
    · have := h.core.apart (mem_held ha) (mem_held hb) fun heq => hne (h.block_inj ha hb heq)
      omega
  refine ⟨?_, h.bounds, h.coalesced, h.hosts, h.aligned, ?_⟩
  · refine h.core.congr rfl rfl rfl ?_
    intro b hb y h₁ h₂
    exact Function.update_of_ne (by rintro rfl; exact hheader b hb ⟨h₁, h₂⟩) _ _
  · intro b hb
    have hload : Bytes.loadWord (Function.update s.mem x v) (b.payload - headerGap) =
        Bytes.loadWord s.mem (b.payload - headerGap) := by
      apply Bytes.loadWord_congr
      intro y hy
      rw [Bytes.mem_span_nat] at hy
      have hlow' := (h.hosts b hb).low
      simp only [headerSize, headerGap] at hlow' hy
      refine Function.update_of_ne ?_ _ _
      rintro rfl
      exact hslot b hb ⟨by simp only [headerGap]; omega, by omega⟩
    rw [Slot, hload]
    exact h.slots b hb

end Invariant

theorem Used.invariant (h : Used s live) : ∃ fl, Invariant s live fl := by
  induction h with
  | init hinit => exact ⟨_, init_spec hinit⟩
  | alloc _ halloc hp ih =>
    obtain ⟨fl, hinv⟩ := ih
    obtain ⟨-, ⟨hnull, -⟩ | ⟨-, -, fl', -, -, -, hinv'⟩⟩ := hinv.alloc_cases halloc
    · exact absurd hnull hp
    · exact ⟨fl', hinv'⟩
  | exhausted _ halloc ih =>
    obtain ⟨fl, hinv⟩ := ih
    obtain ⟨-, ⟨-, rfl, -⟩ | ⟨hp, -⟩⟩ := hinv.alloc_cases halloc
    · exact ⟨fl, hinv⟩
    · exact absurd rfl hp
  | dealloc _ hdealloc ih =>
    obtain ⟨fl, hinv⟩ := ih
    exact ⟨_, (hinv.dealloc_cases hdealloc).1⟩
  | write _ ha hlow hhigh ih =>
    obtain ⟨fl, hinv⟩ := ih
    exact ⟨fl, hinv.write ha hlow hhigh _⟩

theorem Reachable.used (h : Reachable s live) : Used s live := by
  induction h with
  | init hinit => exact .init hinit
  | alloc _ _ halloc hp ih => exact ih.alloc halloc hp
  | exhausted _ _ halloc ih => exact ih.exhausted halloc
  | dealloc _ hdealloc ih => exact ih.dealloc hdealloc
  | write _ ha hlow hhigh ih => exact ih.write ha hlow hhigh

theorem Reachable.invariant (h : Reachable s live) : ∃ fl, Invariant s live fl := h.used.invariant

end FerricK.Heap
