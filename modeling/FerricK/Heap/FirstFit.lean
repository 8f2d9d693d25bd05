import FerricK.Heap.Guarantees

namespace FerricK.Heap

open Rust LinkedList

structure InitSafe (s : State) (start size : Nat) : Prop where
  no_wrap : init s start size ≠ .error .overflow
  refuses : Unusable start size → init s start size = .ok (false, s)

structure AllocSafe (s : State) (fl : List Block) (layout : Layout) : Prop where
  no_wrap : alloc s layout ≠ .error .overflow
  null : (∀ b ∈ fl, ¬b.Fits (max layout.size 1) layout.align) → alloc s layout = .ok (0, s)

structure TakesFirst (s : State) (fl : List Block) (layout : Layout) : Prop where
  null_iff : (∃ s', alloc s layout = .ok (0, s')) ↔
    ∀ b ∈ fl, ¬b.Fits (max layout.size 1) layout.align
  unchanged : ∀ s', alloc s layout = .ok (0, s') → s' = s
  first : ∀ l b r, fl = l ++ b :: r → (∀ c ∈ l, ¬c.Fits (max layout.size 1) layout.align) →
    b.Fits (max layout.size 1) layout.align →
    ∃ s', alloc s layout = .ok (b.payload layout.align, s') ∧
      b.payload layout.align ≠ 0 ∧
        FreeList s' (l ++ b.rest (b.payload layout.align + max layout.size 1) ++ r)

variable {s s' : State} {fl held l r : List Block} {b : Block} {live : List Live}
  {layout : Layout} {payload size : Nat}

theorem init_safe_iff (s : State) (start size : Nat) :
    InitSafe s start size ↔ start + 7 < 2 ^ 64 := by
  constructor
  · intro h
    by_contra hstart
    exact h.no_wrap (by rw [init_eq, if_pos (Nat.not_lt.mp hstart)])
  · intro hstart
    have hsum : ¬2 ^ 64 ≤ start + 7 := Nat.not_le.mpr hstart
    refine ⟨?_, fun hunusable => by rw [init_eq, if_neg hsum, if_pos hunusable]⟩
    rw [init_eq, if_neg hsum]
    split
    · exact fun h => by cases h
    split
    · exact fun h => by cases h
    · exact fun h => by cases h

theorem Invariant.alloc_safe_iff (h : Invariant s live fl) (layout : Layout) :
    AllocSafe s fl layout ↔ NoWrap (max layout.size 1) layout.align fl := by
  constructor
  · intro hsafe
    by_contra hwrap
    exact hsafe.no_wrap (alloc_overflow h.core layout hwrap)
  · intro hwrap
    rcases h.alloc layout hwrap with ⟨-, hnone⟩ | ⟨b, fl', p, s', hfirst, -, hs', -⟩
    · exact ⟨by rw [hnone]; exact fun he => (by cases he), fun _ => hnone⟩
    · refine ⟨by rw [hs']; exact fun he => (by cases he), fun hnofit => ?_⟩
      obtain ⟨l, r, rfl, hfits, -⟩ := firstFit_eq_some hfirst
      exact absurd hfits (hnofit b (by simp))

/-- Nothing overflows in `init` exactly if the start can be rounded up, and nothing in `alloc` if
the payload of each free block up to the first that fits can be. -/
theorem Used.arith_safe_iff (h : Used s live) (hfl : FreeList s fl) (layout : Layout) :
    (∀ s₀ start size, InitSafe s₀ start size ↔ start + 7 < 2 ^ 64) ∧
      (AllocSafe s fl layout ↔ NoWrap (max layout.size 1) layout.align fl) := by
  obtain ⟨fl', hinv⟩ := h.invariant
  obtain rfl := hinv.freeList.unique hfl
  exact ⟨init_safe_iff, hinv.alloc_safe_iff layout⟩

theorem Used.arith_safe_iff_of_one : ∃ s a fl, Used s [a] ∧ FreeList s fl ∧ ∀ layout : Layout,
    (∀ s₀ start size, InitSafe s₀ start size ↔ start + 7 < 2 ^ 64) ∧
      (AllocSafe s fl layout ↔ NoWrap (max layout.size 1) layout.align fl) := by
  obtain ⟨s, a, h⟩ := exists_reachable
  obtain ⟨fl, hinv⟩ := h.invariant
  exact ⟨s, a, fl, h.used, hinv.freeList, fun layout => h.used.arith_safe_iff hinv.freeList layout⟩

/-- In a heap of one page where the kernel has its memory, an alignment of `2 ^ 48` overflows
`alloc`, and a region that starts among the last seven bytes overflows `init`. -/
theorem not_safe : (∃ s, Used s [] ∧ FreeList s [⟨0xFFFF800000001000, 4096⟩] ∧
      alloc s ⟨8, 2 ^ 48, ⟨48, rfl⟩, by decide⟩ = .error .overflow ∧
      ¬AllocSafe s [⟨0xFFFF800000001000, 4096⟩] ⟨8, 2 ^ 48, ⟨48, rfl⟩, by decide⟩) ∧
    init ⟨fun _ => 0, 0, 0, 0⟩ (2 ^ 64 - 3) 64 = .error .overflow ∧
      ¬InitSafe ⟨fun _ => 0, 0, 0, 0⟩ (2 ^ 64 - 3) 64 := by
  obtain ⟨s, hinit, hstart, hend⟩ : ∃ s,
      init ⟨fun _ => 0, 0, 0, 0⟩ 0xFFFF800000001000 4096 = .ok (true, s) ∧
        s.start = 0xFFFF800000001000 ∧ s.end = 0xFFFF800000002000 := ⟨_, rfl, rfl, rfl⟩
  have hinv := init_spec hinit
  rw [hstart, hend] at hinv
  have hwrap : ¬NoWrap 8 (2 ^ 48) [⟨0xFFFF800000001000, 4096⟩] := by
    simp [NoWrap, headerSize, headerGap]
  have halloc := alloc_overflow hinv.core ⟨8, 2 ^ 48, ⟨48, rfl⟩, by decide⟩ hwrap
  have hover : init ⟨fun _ => 0, 0, 0, 0⟩ (2 ^ 64 - 3) 64 = .error .overflow := by
    rw [init_eq, if_pos (by decide)]
  exact ⟨⟨s, .init hinit, hinv.freeList, halloc, fun hsafe => hsafe.no_wrap halloc⟩, hover,
    fun hsafe => hsafe.no_wrap hover⟩

theorem release_front (hhost : b.Hosts payload size) (hco : Coalesced (l ++ b :: r))
    (hcore : Core s (l ++ b.rest (payload + size) ++ r) (b.front (payload + size) :: held)) :
    release (l ++ b.rest (payload + size) ++ r) (b.front (payload + size)) = b :: (l ++ r) := by
  have hleft : ∀ c ∈ l ++ r, c.end ≠ b.addr := fun c hc =>
    hco c (Core.mem_of_mem_sides hc) b (by simp)
  have hright : ∀ c ∈ l ++ r, c.addr ≠ b.end := fun c hc =>
    (hco b (by simp) c (Core.mem_of_mem_sides hc)).symm
  by_cases hsplit : b.Splits (payload + size)
  · have hlow := hhost.low
    have hrest := hsplit.2
    have hup := Align.le_up (v := payload + size) (a := 8) (by omega)
    have hbend : b.end = b.addr + b.size := rfl
    simp only [minBlock, headerSize] at hrest
    simp only [Block.rest, Block.front, if_pos hsplit] at hcore ⊢
    generalize Align.up (payload + size) 8 = t at *
    have hne := (show Core s (l ++ ⟨t, b.end - t⟩ :: r) _ by simpa using hcore).forall_ne_addr
    have hadj : t = (⟨b.addr, t - b.addr⟩ : Block).end := by
      simp only [Block.end]
      omega
    have hl : ∀ c ∈ l, c.addr ≠ (⟨b.addr, t - b.addr⟩ : Block).end := fun c hc =>
      hadj ▸ hne c (List.mem_append_left _ hc)
    have hwhole : (⟨b.addr, t - b.addr + (b.end - t)⟩ : Block) = b := by
      obtain ⟨addr, n⟩ := b
      simp only [Block.mk.injEq, true_and] at *
      omega
    rw [List.append_assoc, List.singleton_append, release, withRight_of_adjacent hl hadj,
      eraseP_of_adjacent hl hadj, hwhole, absorb_of_forall hleft]
  · simp only [Block.rest, Block.front, if_neg hsplit, List.append_nil]
    rw [release, withRight_of_forall hright, eraseP_of_forall hright, absorb_of_forall hleft]

theorem Invariant.takesFirst (h : Invariant s live fl)
    (hwrap : NoWrap (max layout.size 1) layout.align fl) : TakesFirst s fl layout := by
  rcases h.alloc layout hwrap with ⟨hnofit, hnone⟩ |
    ⟨b, fl', p, s₁, hfirst, rfl, hs₁, hp, -, hinv, -⟩
  · have hall := firstFit_eq_none.mp hnofit
    refine ⟨⟨fun _ => hall, fun _ => ⟨s, hnone⟩⟩, fun s' hs' => ?_, fun l b r hfl _ hfits => ?_⟩
    · rw [hnone] at hs'
      cases hs'
      rfl
    · exact absurd hfits (hall b (by simp [hfl]))
  · have hfound : ∀ s', Heap.alloc s layout ≠ .ok (0, s') := by
      intro s' hs'
      rw [hs₁, Except.ok.injEq, Prod.mk.injEq] at hs'
      exact hp hs'.1
    refine ⟨⟨?_, fun hall => ?_⟩, fun s' hs' => ?_, fun l c r hfl hl hfits => ?_⟩
    · rintro ⟨s', hs'⟩
      exact absurd hs' (hfound s')
    · obtain ⟨l, r, rfl, hfits, -⟩ := firstFit_eq_some hfirst
      exact absurd hfits (hall b (by simp))
    · exact absurd hs' (hfound s')
    · subst hfl
      rw [firstFit_append hl hfits] at hfirst
      cases hfirst
      exact ⟨s₁, hs₁, hp, hinv.freeList⟩

/-- Giving back what has just been allocated leaves the same blocks free. -/
theorem Invariant.dealloc_alloc (h : Invariant s live fl) {p : Nat}
    (halloc : Heap.alloc s layout = .ok (p, s')) (hp : p ≠ 0) :
    ∃ s'' fl'', Heap.dealloc s' p = .ok s'' ∧ FreeList s'' fl'' ∧ fl''.Perm fl := by
  obtain ⟨-, ⟨hnull, -⟩ | ⟨-, b, fl', hfirst, rfl, hbounds, hinv⟩⟩ := h.alloc_cases halloc
  · exact absurd hnull hp
  obtain ⟨l, r, rfl, hfits, rfl⟩ := firstFit_eq_some hfirst
  have hhost := hfits.hosts (h.core.shape b (by simp)) layout.align_pow
  obtain ⟨s'', hs'', hinv'', -⟩ := hinv.dealloc
  refine ⟨s'', _, hs'', hinv''.freeList, ?_⟩
  have hcore := hinv.core
  simp only [List.map_cons, hbounds] at hcore ⊢
  rw [release_front hhost h.coalesced hcore]
  exact List.perm_middle.symm

/-- `alloc` is first fit over the whole free list, and `dealloc` undoes it. -/
theorem Used.first_fit (h : Used s live) : ∃ fl, FreeList s fl ∧
    (∀ layout : Layout, NoWrap (max layout.size 1) layout.align fl → TakesFirst s fl layout) ∧
      ∀ (layout : Layout) (p : Nat) (s' : State), Heap.alloc s layout = .ok (p, s') → p ≠ 0 →
        ∃ s'' fl'', Heap.dealloc s' p = .ok s'' ∧ FreeList s'' fl'' ∧ fl''.Perm fl := by
  obtain ⟨fl, hinv⟩ := h.invariant
  exact ⟨fl, hinv.freeList, fun _ => hinv.takesFirst, fun _ _ _ => hinv.dealloc_alloc⟩

theorem Used.first_fit_of_one : ∃ s a, Used s [a] ∧ ∃ fl, FreeList s fl ∧
    (∀ layout : Layout, NoWrap (max layout.size 1) layout.align fl → TakesFirst s fl layout) ∧
      ∀ (layout : Layout) (p : Nat) (s' : State), Heap.alloc s layout = .ok (p, s') → p ≠ 0 →
        ∃ s'' fl'', Heap.dealloc s' p = .ok s'' ∧ FreeList s'' fl'' ∧ fl''.Perm fl := by
  obtain ⟨s, a, h⟩ := exists_reachable
  exact ⟨s, a, h.used, h.used.first_fit⟩

end FerricK.Heap
