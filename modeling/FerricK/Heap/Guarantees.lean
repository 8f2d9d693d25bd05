import FerricK.Heap.Runs

namespace FerricK.Heap

open Rust LinkedList Tiling

structure FreeList (s : State) (fl : List Block) : Prop where
  list : IsList s.links (fl.map Block.addr)
  sizes : ∀ b ∈ fl, s.field .size b.addr = b.size

structure Tiled (s : State) (live : List Live) (fl : List Block) : Prop where
  free : FreeList s fl
  prev_head : s.free ≠ 0 → s.field .prev s.free = 0
  prev_next : ∀ b ∈ fl, s.field .next b.addr ≠ 0 → s.field .prev (s.field .next b.addr) = b.addr
  shape : ∀ b ∈ fl ++ live.map fun a => blockBounds s a.payload, b.Shape
  tiles : Tiles s.start s.end ((fl ++ live.map fun a => blockBounds s a.payload).map Block.extent)

/-- Payloads lie in the heap as asked for, clear of each other and of all metadata, and the
slot under each leads to the header it was made with. -/
structure Isolated (s : State) (live : List Live) (fl : List Block) : Prop where
  free : FreeList s fl
  aligned : ∀ a ∈ live, a.layout.align ∣ a.payload
  within : ∀ a ∈ live, s.start ≤ a.payload ∧ a.payload + a.size ≤ s.end
  payloads : live.Pairwise fun a b => Apart a.span b.span
  headers : ∀ a ∈ live, ∀ b ∈ fl ++ live.map Live.block, Apart a.span (b.addr, b.addr + headerSize)
  slots : ∀ a ∈ live, ∀ b ∈ live, Apart a.span (b.payload - headerGap, b.payload)
  recovers : ∀ a ∈ live, blockAddr s a.payload = .ok a.block.addr

structure Undisturbed (s s' : State) (a : Live) : Prop where
  payload : ∀ x, a.payload ≤ x → x < a.payload + a.size → s'.mem x = s.mem x
  size : s'.field .size a.block.addr = s.field .size a.block.addr
  slot : Bytes.loadWord s'.mem (a.payload - headerGap) =
    Bytes.loadWord s.mem (a.payload - headerGap)

def deallocAll (order : List Live) (s : State) : Rust State :=
  forEach order (fun a s => dealloc s a.payload) s

variable {s s' : State} {fl fl' : List Block} {a : Live} {live order l r : List Live}

theorem FreeList.unique (h : FreeList s fl) (h' : FreeList s fl') : fl = fl' := by
  have hback : ∀ {fl}, FreeList s fl →
      fl = (fl.map Block.addr).map fun x => ⟨x, s.field .size x⟩ := by
    intro fl hfl
    rw [List.map_map]
    conv_lhs => rw [← List.map_id fl]
    exact List.map_congr_left fun b hb => by simp [hfl.sizes b hb]
  rw [hback h, hback h', h.list.unique h'.list]

theorem Invariant.freeList (h : Invariant s live fl) : FreeList s fl :=
  ⟨h.core.links, fun b hb => h.core.sizes b (List.mem_append_left _ hb)⟩

theorem Invariant.tiled (h : Invariant s live fl) : Tiled s live fl := by
  have hblocks : (live.map fun a => blockBounds s a.payload) = live.map Live.block :=
    List.map_congr_left fun a ha => h.bounds_eq ha
  refine ⟨h.freeList, h.core.links.prev_head, ?_, ?_, ?_⟩
  · exact fun b hb => h.core.links.prev_next (List.mem_map_of_mem hb)
  · rw [hblocks]
    exact h.core.shape
  · rw [hblocks]
    exact h.core.tiles

theorem Invariant.isolated (h : Invariant s live fl) : Isolated s live fl where
  free := h.freeList
  aligned := h.aligned
  within a ha := by
    have hhost := h.hosts a ha
    have hlow := hhost.low
    have hhigh := hhost.high
    have hin := h.core.within (mem_held ha)
    omega
  payloads := by
    have hne : live.Nodup := List.Nodup.of_map _ (List.nodup_append.mp h.core.nodup).2.1
    refine hne.imp_of_mem fun {a b} ha hb hab => ?_
    have hapart := h.core.apart (mem_held ha) (mem_held hb) fun heq => hab (h.block_inj ha hb heq)
    have hlow := (h.hosts a ha).low
    have hhigh := (h.hosts a ha).high
    have hlow' := (h.hosts b hb).low
    have hhigh' := (h.hosts b hb).high
    simp only [Apart, Live.span]
    omega
  headers a ha b hb := by
    have hlow := (h.hosts a ha).low
    have hhigh := (h.hosts a ha).high
    have hroom := (h.core.shape b hb).room
    have hbend : b.end = b.addr + b.size := rfl
    simp only [headerSize, headerGap] at hlow hroom
    simp only [Apart, Live.span, headerSize]
    rcases eq_or_ne a.block b with rfl | hne
    · omega
    · have := h.core.apart (mem_held ha) hb hne
      omega
  slots a ha b hb := by
    have hlow := (h.hosts a ha).low
    have hhigh := (h.hosts a ha).high
    have hlow' := (h.hosts b hb).low
    have hhigh' := (h.hosts b hb).high
    simp only [headerSize, headerGap] at hlow hlow'
    simp only [Apart, Live.span, headerGap]
    rcases eq_or_ne a b with rfl | hne
    · omega
    · have := h.core.apart (mem_held ha) (mem_held hb) fun heq => hne (h.block_inj ha hb heq)
      have := b.size_pos
      omega
  recovers a ha := by
    have hnode := h.core.node (mem_held ha)
    exact blockAddr_spec (Nat.pos_of_ne_zero hnode.1) (h.hosts a ha) (h.slots a ha) hnode.2

theorem exists_reachable : ∃ s a, Reachable s [a] := by
  have hrun : ∃ s, init ⟨fun _ => 0, 0, 0, 0⟩ 4096 4096 = .ok (true, s) ∧ s.start = 4096 ∧
      s.end = 8192 := ⟨_, rfl, rfl, rfl⟩
  obtain ⟨s, hinit, hstart, hend⟩ := hrun
  have hwrap : s.end + 64 < 2 ^ 64 := by omega
  have hcore := (init_spec hinit).core
  rcases alloc_spec hcore ⟨24, 64, ⟨6, rfl⟩, by omega⟩ (hcore.noWrap hwrap _) with
    ⟨hnone, -⟩ | ⟨b, -, s', -, halloc, hhost, -⟩
  · have hfits : firstFit 24 64 [⟨4096, 4096⟩] ≠ none := by decide
    rw [hstart, hend] at hnone
    exact absurd hnone hfits
  · have hlow := hhost.low
    have hpos : b.payload 64 ≠ 0 := by
      simp only [headerSize] at hlow
      omega
    exact ⟨s', _, (Reachable.init hinit).alloc hwrap halloc hpos⟩

theorem Invariant.undisturbed (h : Invariant s live fl) (ha : a ∈ live)
    (hunt : Untouched s s' [a.block]) : Undisturbed s s' a where
  payload x h₁ h₂ := by
    have hlow := (h.hosts a ha).low
    have hhigh := (h.hosts a ha).high
    exact hunt.mem a.block (List.mem_singleton_self _) x (by omega) (by omega)
  size := hunt.field (List.mem_singleton_self _) (h.core.shape _ (mem_held ha)) .size
  slot := by
    have hslot := (hunt.slot (List.mem_singleton_self _) (h.hosts a ha)).mpr (h.slots a ha)
    exact hslot.trans (h.slots a ha).symm

/-- Calls on a reachable heap return, and free and live blocks always tile it. -/
theorem Reachable.blocks_tile (h : Reachable s live) :
    (∃ fl, Tiled s live fl) ∧
      (∀ layout : Layout, s.end + layout.align < 2 ^ 64 →
        ∃ p s', Heap.alloc s layout = .ok (p, s')) ∧
      ∀ a ∈ live, ∃ s', Heap.dealloc s a.payload = .ok s' := by
  obtain ⟨fl, hinv⟩ := h.invariant
  refine ⟨⟨fl, hinv.tiled⟩, fun layout hwrap => ?_, fun a ha => ?_⟩
  · rcases hinv.alloc layout (hinv.core.noWrap hwrap _) with ⟨-, hnone⟩ |
      ⟨-, -, p, s', -, -, hs', -⟩
    · exact ⟨0, s, hnone⟩
    · exact ⟨p, s', hs'⟩
  · obtain ⟨l, r, rfl⟩ := List.mem_iff_append.mp ha
    obtain ⟨s', hs', -⟩ := (hinv.perm List.perm_middle).dealloc
    exact ⟨s', hs'⟩

theorem Reachable.blocks_tile_of_one : ∃ s a, Reachable s [a] ∧
    (∃ fl, Tiled s [a] fl) ∧
      (∀ layout : Layout, s.end + layout.align < 2 ^ 64 →
        ∃ p s', Heap.alloc s layout = .ok (p, s')) ∧
      ∀ b ∈ [a], ∃ s', Heap.dealloc s b.payload = .ok s' := by
  obtain ⟨s, a, h⟩ := exists_reachable
  exact ⟨s, a, h, h.blocks_tile⟩

theorem Reachable.payloads_isolated (h : Reachable s live) :
    (∃ fl, Isolated s live fl) ∧
      (∀ (layout : Layout) (p : Nat) (s' : State), s.end + layout.align < 2 ^ 64 →
        Heap.alloc s layout = .ok (p, s') → ∀ a ∈ live, Undisturbed s s' a) ∧
      ∀ (l : List Live) (a : Live) (r : List Live) (s' : State), live = l ++ a :: r →
        Heap.dealloc s a.payload = .ok s' → ∀ b ∈ l ++ r, Undisturbed s s' b := by
  obtain ⟨fl, hinv⟩ := h.invariant
  refine ⟨⟨fl, hinv.isolated⟩, fun layout p s' _ halloc a ha => ?_,
    fun l a r s' hlive hdealloc b hb => ?_⟩
  · have hunt := (hinv.alloc_cases halloc).1
    exact hinv.undisturbed ha (hunt.mono (by simpa using List.mem_map_of_mem (f := Live.block) ha))
  · subst hlive
    have hunt := (hinv.dealloc_cases hdealloc).2
    have hb' : b ∈ l ++ a :: r := by
      simp only [List.mem_append, List.mem_cons] at hb ⊢
      tauto
    exact hinv.undisturbed hb' (hunt.mono (by simpa using List.mem_map_of_mem (f := Live.block) hb))

theorem Reachable.payloads_isolated_of_one : ∃ s a, Reachable s [a] ∧
    (∃ fl, Isolated s [a] fl) ∧
      (∀ (layout : Layout) (p : Nat) (s' : State), s.end + layout.align < 2 ^ 64 →
        Heap.alloc s layout = .ok (p, s') → ∀ b ∈ [a], Undisturbed s s' b) ∧
      ∀ (l : List Live) (b : Live) (r : List Live) (s' : State), [a] = l ++ b :: r →
        Heap.dealloc s b.payload = .ok s' → ∀ c ∈ l ++ r, Undisturbed s s' c := by
  obtain ⟨s, a, h⟩ := exists_reachable
  exact ⟨s, a, h, h.payloads_isolated⟩

theorem Invariant.deallocAll (h : Invariant s order fl) :
    ∃ s' fl', deallocAll order s = .ok s' ∧ Invariant s' [] fl' ∧ s'.start = s.start ∧
      s'.end = s.end := by
  induction order generalizing s fl with
  | nil => exact ⟨s, fl, rfl, h, rfl, rfl⟩
  | cons a order ih =>
    obtain ⟨s₁, hs₁, hinv₁, hunt⟩ := h.dealloc
    obtain ⟨s', fl', hs', hinv', hstart, hend⟩ := ih hinv₁
    refine ⟨s', fl', ?_, hinv', hstart.trans hunt.start, hend.trans hunt.end⟩
    rw [Heap.deallocAll, forEach_cons, hs₁, ok_bind]
    exact hs'

theorem Invariant.free_eq (h : Invariant s [] fl) : fl = [⟨s.start, s.end - s.start⟩] := by
  have htiles := h.core.tiles
  rw [List.map_nil, List.append_nil] at htiles
  have hone : fl.map Block.extent = [(s.start, s.end)] := by
    apply htiles.eq_singleton h.bounds
    intro p hp q hq
    obtain ⟨b, hb, rfl⟩ := List.mem_map.mp hp
    obtain ⟨c, hc, rfl⟩ := List.mem_map.mp hq
    exact h.coalesced b hb c hc
  have hbounds := h.bounds
  have hextent : (⟨s.start, s.end - s.start⟩ : Block).extent = (s.start, s.end) := by
    simp only [Block.extent, Block.end, Prod.mk.injEq, true_and]
    omega
  apply List.map_injective_iff.mpr Block.extent_injective
  rw [hone, List.map_singleton, hextent]

/-- No two free blocks ever touch, so giving everything back, in any order, restores the heap
that `init` made. -/
theorem Reachable.heap_heals (h : Reachable s live) :
    (∀ fl, FreeList s fl → Coalesced fl) ∧
      ∀ order, order.Perm live → ∃ s', deallocAll order s = .ok s' ∧
        s'.start = s.start ∧ s'.end = s.end ∧ s'.free = s.start ∧
        s'.field .size s.start = s.end - s.start ∧ s'.field .next s.start = 0 ∧
        s'.field .prev s.start = 0 := by
  obtain ⟨fl, hinv⟩ := h.invariant
  refine ⟨fun fl' hfl' => hinv.freeList.unique hfl' ▸ hinv.coalesced, fun order hperm => ?_⟩
  obtain ⟨s', fl', hs', hinv', hstart, hend⟩ := (hinv.perm hperm.symm).deallocAll
  obtain rfl := hinv'.free_eq
  have hlist := hinv'.core.links
  obtain ⟨hprev, hnext, -⟩ := hlist.front.seg
  refine ⟨s', hs', hstart, hend, ?_⟩
  rw [← hstart, ← hend]
  exact ⟨hlist.front.head, hinv'.core.sizes ⟨s'.start, s'.end - s'.start⟩ (by simp), hnext, hprev⟩

theorem Reachable.heap_heals_of_one : ∃ s a, Reachable s [a] ∧
    (∀ fl, FreeList s fl → Coalesced fl) ∧
      ∀ order, order.Perm [a] → ∃ s', Heap.deallocAll order s = .ok s' ∧
        s'.start = s.start ∧ s'.end = s.end ∧ s'.free = s.start ∧
        s'.field .size s.start = s.end - s.start ∧ s'.field .next s.start = 0 ∧
        s'.field .prev s.start = 0 := by
  obtain ⟨s, a, h⟩ := exists_reachable
  exact ⟨s, a, h, h.heap_heals⟩

end FerricK.Heap
