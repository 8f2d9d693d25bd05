import FerricK.Heap.Headers
import FerricK.Lib.Tiling

namespace FerricK.Heap

open Rust LinkedList Tiling

structure Block where
  addr : Nat
  size : Nat
  deriving DecidableEq, Repr

def Block.end (b : Block) : Nat := b.addr + b.size

def Block.extent (b : Block) : Nat × Nat := (b.addr, b.end)

theorem Block.extent_injective : Function.Injective Block.extent := by
  rintro ⟨a, m⟩ ⟨b, n⟩ h
  simp only [Block.extent, Block.end, Prod.mk.injEq] at h
  simp only [Block.mk.injEq]
  omega

structure Block.Shape (b : Block) : Prop where
  addr : b.addr % 8 = 0
  size : b.size % 8 = 0
  room : headerSize + headerGap ≤ b.size

/-- `fl` is the free list, in list order; with the blocks `held` outside it, it tiles the heap. -/
structure Core (s : State) (fl held : List Block) : Prop where
  start_pos : 0 < s.start
  end_lt : s.end < 2 ^ 64
  shape : ∀ b ∈ fl ++ held, b.Shape
  sizes : ∀ b ∈ fl ++ held, s.field .size b.addr = b.size
  links : IsList s.links (fl.map Block.addr)
  tiles : Tiles s.start s.end ((fl ++ held).map Block.extent)

structure Untouched (s s' : State) (held : List Block) : Prop where
  start : s'.start = s.start
  «end» : s'.end = s.end
  mem : ∀ c ∈ held, ∀ x, c.addr ≤ x → x < c.end → s'.mem x = s.mem x

variable {s s' s'' : State} {fl held l r : List Block} {b c B L R : Block} {N : List Nat} {t : Nat}

theorem Block.Shape.lt (h : b.Shape) : b.addr < b.end := by
  have := h.room
  simp only [headerSize, headerGap] at this
  simp only [Block.end]
  omega

theorem Block.Shape.join (hb : b.Shape) (hc : c.Shape) :
    (⟨b.addr, b.size + c.size⟩ : Block).Shape where
  addr := hb.addr
  size := by
    have := hb.size
    have := hc.size
    simp only
    omega
  room := Nat.le_add_right_of_le hb.room

theorem Block.Shape.front (hb : b.Shape) (ht : t % 8 = 0)
    (hlow : b.addr + headerSize + headerGap ≤ t) : (⟨b.addr, t - b.addr⟩ : Block).Shape where
  addr := hb.addr
  size := by
    have := hb.addr
    simp only
    omega
  room := by
    simp only
    omega

theorem Block.Shape.back (hb : b.Shape) (ht : t % 8 = 0)
    (hhigh : t + headerSize + headerGap ≤ b.end) : (⟨t, b.end - t⟩ : Block).Shape where
  addr := ht
  size := by
    have := hb.addr
    have := hb.size
    simp only [Block.end]
    omega
  room := by
    simp only
    omega

theorem tiles_join {lo hi : Nat} {bs : List Block}
    (h : Tiles lo hi ((b :: c :: bs).map Block.extent)) (hadj : b.end = c.addr) :
    Tiles lo hi ((⟨b.addr, b.size + c.size⟩ :: bs).map Block.extent) := by
  have hsecond : c.extent = (b.end, c.end) := by rw [Block.extent, hadj]
  have hwhole : (⟨b.addr, b.size + c.size⟩ : Block).extent = (b.addr, c.end) := by
    simp only [Block.extent, Prod.mk.injEq, true_and]
    simp only [Block.end] at *
    omega
  rw [List.map_cons, List.map_cons, hsecond] at h
  rw [List.map_cons, hwhole]
  exact h.join

theorem tiles_cut {lo hi : Nat} {bs : List Block} (h : Tiles lo hi ((b :: bs).map Block.extent))
    (hlow : b.addr < t) (hhigh : t < b.end) :
    Tiles lo hi ((⟨b.addr, t - b.addr⟩ :: ⟨t, b.end - t⟩ :: bs).map Block.extent) := by
  have hfront : (⟨b.addr, t - b.addr⟩ : Block).extent = (b.addr, t) := by
    simp only [Block.extent, Block.end, Prod.mk.injEq, true_and]
    omega
  have hback : (⟨t, b.end - t⟩ : Block).extent = (t, b.end) := by
    simp only [Block.extent, Prod.mk.injEq, true_and]
    simp only [Block.end] at *
    omega
  rw [List.map_cons, List.map_cons, hfront, hback]
  exact h.split hlow hhigh

theorem Untouched.refl (s : State) (held : List Block) : Untouched s s held :=
  ⟨rfl, rfl, fun _ _ _ _ _ => rfl⟩

theorem Untouched.trans (h : Untouched s s' held) (h' : Untouched s' s'' held) :
    Untouched s s'' held :=
  ⟨h'.start.trans h.start, h'.end.trans h.end,
    fun c hc x h₁ h₂ => (h'.mem c hc x h₁ h₂).trans (h.mem c hc x h₁ h₂)⟩

theorem Untouched.mono (h : Untouched s s' held) {held' : List Block} (hsub : held' ⊆ held) :
    Untouched s s' held' := ⟨h.start, h.end, fun c hc => h.mem c (hsub hc)⟩

theorem Frame.untouched (h : Frame N s s')
    (hN : ∀ c ∈ held, ∀ a ∈ N, c.end ≤ a ∨ a + headerSize ≤ c.addr) : Untouched s s' held where
  start := h.start
  «end» := h.end
  mem c hc x h₁ h₂ := by
    apply h.mem
    intro a ha
    have := hN c hc a ha
    omega

theorem Untouched.field (h : Untouched s s' held) (hc : c ∈ held) (hs : c.Shape) (f : Field) :
    s'.field f c.addr = s.field f c.addr := by
  apply Bytes.loadWord_congr
  intro x hx
  rw [Bytes.mem_span_nat] at hx
  have hroom := hs.room
  have hoff := f.offset_lt
  have hend : c.end = c.addr + c.size := rfl
  exact h.mem c hc x (by omega) (by omega)

namespace Core

theorem within (h : Core s fl held) (hb : b ∈ fl ++ held) : s.start ≤ b.addr ∧ b.end ≤ s.end :=
  h.tiles.within b.extent (List.mem_map_of_mem hb)

theorem apart (h : Core s fl held) (hb : b ∈ fl ++ held) (hc : c ∈ fl ++ held) (hne : b ≠ c) :
    b.end ≤ c.addr ∨ c.end ≤ b.addr := by
  apply h.tiles.apart (List.mem_map_of_mem hb) (List.mem_map_of_mem hc)
  exact fun heq => hne (Block.extent_injective heq)

theorem eq_of_addr (h : Core s fl held) (hb : b ∈ fl ++ held) (hc : c ∈ fl ++ held)
    (haddr : b.addr = c.addr) : b = c := by
  by_contra hne
  have := (h.shape b hb).lt
  have := (h.shape c hc).lt
  have := h.apart hb hc hne
  omega

theorem node (h : Core s fl held) (hb : b ∈ fl ++ held) : b.addr ≠ 0 ∧ b.addr % 8 = 0 := by
  have := h.start_pos
  have := h.within hb
  exact ⟨by omega, (h.shape b hb).addr⟩

theorem addr_lt (h : Core s fl held) (hb : b ∈ fl ++ held) : b.addr < 2 ^ 64 := by
  have := (h.shape b hb).lt
  have := h.within hb
  have := h.end_lt
  omega

theorem separated (h : Core s fl held) : Separated ((fl ++ held).map Block.addr) where
  node a ha := by
    obtain ⟨b, hb, rfl⟩ := List.mem_map.mp ha
    exact h.node hb
  apart a ha a' ha' hne := by
    obtain ⟨b, hb, rfl⟩ := List.mem_map.mp ha
    obtain ⟨c, hc, rfl⟩ := List.mem_map.mp ha'
    have hbc := h.apart hb hc (fun heq => hne (congrArg Block.addr heq))
    have hrb := (h.shape b hb).room
    have hrc := (h.shape c hc).room
    simp only [Block.end, headerSize, headerGap] at *
    omega

theorem nodup (h : Core s fl held) : (fl ++ held).Nodup := by
  have hpair := List.pairwise_map.mp h.tiles.disjoint
  refine hpair.imp_of_mem fun {b c} hb _ hapart heq => ?_
  subst heq
  have hlt := (h.shape b hb).lt
  rcases hapart with hle | hle <;> exact absurd hle hlt.not_ge

theorem links_at (h : Core s (l ++ b :: r) held) :
    IsList s.links (l.map Block.addr ++ b.addr :: r.map Block.addr) := by
  rw [← List.map_cons, ← List.map_append]
  exact h.links

theorem next_eq (h : Core s (l ++ b :: r) held) :
    s.field .next b.addr = (r.map Block.addr).headD 0 := h.links_at.links.2

theorem linked (h : Core s (l ++ b :: r) held) :
    Linked ((l ++ b :: r).map Block.addr) s.links b.addr := by
  have hlist := h.links_at
  obtain ⟨hprev, hnext⟩ := hlist.links
  have hlast := getLastD_mem_or (l.map Block.addr)
  have hhead := headD_mem_or (r.map Block.addr)
  rw [← hprev] at hlast
  rw [← hnext] at hhead
  refine ⟨by simp, ?_, ?_, ?_⟩
  · exact hhead.imp_right fun hmem => by simp only [List.map_append, List.map_cons]; simp [hmem]
  · exact hlast.imp_right fun hmem => by simp only [List.map_append, List.map_cons]; simp [hmem]
  · intro heq
    rcases hlast with h₀ | hmem
    · exact (h.node (b := b) (by simp)).1 (heq.symm.trans h₀)
    · exact (List.nodup_append.mp hlist.nodup).2.2 _ hmem _ (by simp) heq

theorem clear (h : Core s fl held) (hc : c ∈ held) (hb : b ∈ fl) :
    c.end ≤ b.addr ∨ b.addr + headerSize ≤ c.addr := by
  have hb' : b ∈ fl ++ held := by simp [hb]
  have hc' : c ∈ fl ++ held := by simp [hc]
  have hne : c ≠ b := by
    rintro rfl
    exact (List.nodup_append.mp h.nodup).2.2 _ hb _ hc rfl
  have hap := h.apart hc' hb' hne
  have hroom := (h.shape b hb').room
  simp only [Block.end, headerSize, headerGap] at *
  omega

theorem clear_held (h : Core s fl (B :: held)) (hc : c ∈ held) :
    c.end ≤ B.addr ∨ B.addr + headerSize ≤ c.addr := by
  have hne : c ≠ B := by
    rintro rfl
    exact (List.nodup_cons.mp (List.nodup_append.mp h.nodup).2.1).1 hc
  have hap := h.apart (b := c) (c := B) (by simp [hc]) (by simp) hne
  have hroom := (h.shape B (by simp)).room
  simp only [Block.end, headerSize, headerGap] at *
  omega

theorem congr (h : Core s fl held) (hfree : s'.free = s.free) (hstart : s'.start = s.start)
    (hend : s'.end = s.end)
    (hmem : ∀ b ∈ fl ++ held, ∀ x, b.addr ≤ x → x < b.addr + headerSize → s'.mem x = s.mem x) :
    Core s' fl held := by
  have hfield : ∀ b ∈ fl ++ held, ∀ f, s'.field f b.addr = s.field f b.addr := by
    intro b hb f
    apply Bytes.loadWord_congr
    intro x hx
    rw [Bytes.mem_span_nat] at hx
    have := f.offset_lt
    exact hmem b hb x (by omega) (by omega)
  refine ⟨hstart ▸ h.start_pos, hend ▸ h.end_lt, h.shape, ?_, ?_, ?_⟩
  · exact fun b hb => (hfield b hb _).trans (h.sizes b hb)
  · refine h.links.congr hfree ?_ ?_ <;>
    · intro a ha
      obtain ⟨b, hb, rfl⟩ := List.mem_map.mp ha
      exact hfield b (by simp [hb]) _
  · rw [hstart, hend]
    exact h.tiles

theorem perm_free (l r held : List Block) (b : Block) :
    (l ++ b :: r ++ held).Perm (b :: (l ++ r ++ held)) := by
  simp only [List.append_assoc, List.cons_append]
  exact List.perm_middle

theorem Tiles.extents {lo hi : Nat} {bs cs : List Block} (h : Tiles lo hi (bs.map Block.extent))
    (hperm : bs.Perm cs) : Tiles lo hi (cs.map Block.extent) := h.perm (hperm.map _)

theorem mem_of_mem_sides (h : c ∈ l ++ r) : c ∈ l ++ b :: r := by
  simp only [List.mem_append, List.mem_cons] at h ⊢
  tauto

theorem mem_middle (h : c ∈ l ++ b :: r) : c = b ∨ c ∈ l ++ r := by
  simp only [List.mem_append, List.mem_cons] at h ⊢
  tauto

/-- A new core from an old one: the links and the tiling are given, every block is one of
`kept` or has its shape and its size on record. -/
theorem of_untouched (h : Core s fl held) {fl' held' kept : List Block}
    (hunt : Untouched s s' kept) (hkept : kept ⊆ held)
    (hblocks : ∀ c ∈ fl' ++ held', c ∈ kept ∨ c.Shape ∧ s'.field .size c.addr = c.size)
    (hlinks : IsList s'.links (fl'.map Block.addr))
    (htiles : Tiles s.start s.end ((fl' ++ held').map Block.extent)) : Core s' fl' held' := by
  have hrec : ∀ c ∈ fl' ++ held', c.Shape ∧ s'.field .size c.addr = c.size := by
    intro c hc
    rcases hblocks c hc with hmem | hrec
    · have hc' : c ∈ fl ++ held := List.mem_append_right _ (hkept hmem)
      have hs := h.shape c hc'
      exact ⟨hs, (hunt.field hmem hs .size).trans (h.sizes c hc')⟩
    · exact hrec
  exact ⟨hunt.start ▸ h.start_pos, hunt.end ▸ h.end_lt, fun c hc => (hrec c hc).1,
    fun c hc => (hrec c hc).2, hlinks, by rwa [hunt.start, hunt.end]⟩

theorem separated_free (h : Core s fl held) : Separated (fl.map Block.addr) :=
  h.separated.mono (List.map_subset _ (List.subset_append_left _ _))

theorem separated_cons (h : Core s fl (B :: held)) : Separated (B.addr :: fl.map Block.addr) := by
  apply h.separated.mono
  intro a ha
  simp only [List.map_append, List.map_cons, List.mem_append, List.mem_cons] at ha ⊢
  tauto

theorem not_mem_held (h : Core s (l ++ b :: r) held) : b ∉ l ++ r ++ held :=
  (List.nodup_cons.mp ((perm_free l r held b).nodup_iff.mp h.nodup)).1

theorem untouched_free (h : Core s fl held) (hframe : Frame (fl.map Block.addr) s s') :
    Untouched s s' held := by
  apply hframe.untouched
  intro c hc a ha
  obtain ⟨d, hd, rfl⟩ := List.mem_map.mp ha
  exact h.clear hc hd

theorem untouched_cons (h : Core s fl (B :: held))
    (hframe : Frame (B.addr :: fl.map Block.addr) s s') : Untouched s s' held := by
  apply hframe.untouched
  intro c hc a ha
  rcases List.mem_cons.mp ha with rfl | ha
  · exact h.clear_held hc
  · obtain ⟨d, hd, rfl⟩ := List.mem_map.mp ha
    exact h.clear (List.mem_cons_of_mem _ hc) hd

theorem size_of_ne (h : Core s fl held) {d : Links Nat} {v : Nat}
    (hholds : Holds N s' d (Function.update (s.field .size) b.addr v)) (hb : b ∈ fl ++ held)
    (hc : c ∈ fl ++ held) (hN : c.addr ∈ N) (hne : c ≠ b) :
    s'.field .size c.addr = c.size := by
  have haddr : c.addr ≠ b.addr := fun heq => hne (h.eq_of_addr hc hb heq)
  rw [hholds.size c.addr hN, Function.update_of_ne haddr]
  exact h.sizes c hc

theorem unlink (h : Core s (l ++ b :: r) held) :
    ∃ s', unlink s b.addr = .ok s' ∧ Core s' (l ++ r) (b :: held) ∧ Untouched s s' held := by
  obtain ⟨s', hs', hholds, hframe⟩ := unlink_spec (Holds.self _ s) h.separated_free h.linked
  have hunt := h.untouched_free hframe
  have hperm : (l ++ b :: r ++ held).Perm (l ++ r ++ b :: held) :=
    (perm_free l r held b).trans List.perm_middle.symm
  refine ⟨s', hs', h.of_untouched hunt (fun _ hc => hc) ?_ ?_ (Tiles.extents h.tiles hperm), hunt⟩
  · intro c hc
    have hc' := hperm.mem_iff.mpr hc
    rcases List.mem_append.mp hc' with hmem | hmem
    · exact Or.inr ⟨h.shape c hc', (hholds.size _ (List.mem_map_of_mem hmem)).trans (h.sizes c hc')⟩
    · exact Or.inl hmem
  · rw [List.map_append]
    apply hholds.isList h.links_at.unlink
    rw [← List.map_append]
    exact List.map_subset _ fun _ => mem_of_mem_sides

theorem cut_apart (h : Core s fl held) (hb : b ∈ fl ++ held)
    (hlow : b.addr + headerSize + headerGap ≤ t) (hhigh : t + headerSize + headerGap ≤ b.end)
    (hc : c ∈ fl ++ held) (hne : c ≠ b) : t + headerSize ≤ c.addr ∨ c.end ≤ t := by
  have := h.apart hc hb hne
  simp only [headerSize, headerGap] at *
  omega

theorem cut_clear (h : Core s fl held) (hb : b ∈ fl ++ held)
    (hlow : b.addr + headerSize + headerGap ≤ t) (hhigh : t + headerSize + headerGap ≤ b.end)
    (hc : c ∈ fl ++ held) : t + headerSize ≤ c.addr ∨ c.addr + headerSize ≤ t := by
  rcases eq_or_ne c b with rfl | hne
  · omega
  · have hroom := (h.shape c hc).room
    have := h.cut_apart hb hlow hhigh hc hne
    simp only [Block.end] at *
    omega

theorem separated_cut (h : Core s fl held) (hb : b ∈ fl ++ held) (ht : t % 8 = 0)
    (hlow : b.addr + headerSize + headerGap ≤ t) (hhigh : t + headerSize + headerGap ≤ b.end) :
    Separated (t :: fl.map Block.addr) ∧ t ∉ fl.map Block.addr := by
  have hclear : ∀ a ∈ fl.map Block.addr, t + headerSize ≤ a ∨ a + headerSize ≤ t := by
    intro a ha
    obtain ⟨c, hc, rfl⟩ := List.mem_map.mp ha
    exact h.cut_clear hb hlow hhigh (List.mem_append_left _ hc)
  simp only [headerSize] at hlow hclear
  refine ⟨h.separated_free.cons ⟨by omega, ht⟩ hclear, fun hmem => ?_⟩
  have := hclear t hmem
  omega

theorem untouched_cut (h : Core s fl held) (hb : b ∈ fl)
    (hlow : b.addr + headerSize + headerGap ≤ t) (hhigh : t + headerSize + headerGap ≤ b.end)
    (hframe : Frame (t :: fl.map Block.addr) s s') : Untouched s s' held := by
  apply hframe.untouched
  intro c hc a ha
  rcases List.mem_cons.mp ha with rfl | ha
  · have hne : c ≠ b := fun heq => (List.nodup_append.mp h.nodup).2.2 b hb c hc heq.symm
    exact (h.cut_apart (List.mem_append_left _ hb) hlow hhigh (List.mem_append_right _ hc) hne).symm
  · obtain ⟨d, hd, rfl⟩ := List.mem_map.mp ha
    exact h.clear hc hd

theorem splitTail (h : Core s (l ++ b :: r) held) (ht : t % 8 = 0)
    (hlow : b.addr + headerSize + headerGap ≤ t) (hhigh : t + headerSize + headerGap ≤ b.end) :
    ∃ s', splitTail s b.addr t (b.end - t) = .ok s' ∧
      Core s' (l ++ ⟨t, b.end - t⟩ :: r) (⟨b.addr, t - b.addr⟩ :: held) ∧
      Untouched s s' held := by
  have hbl : b ∈ l ++ b :: r := by simp
  have hb : b ∈ l ++ b :: r ++ held := List.mem_append_left _ hbl
  have hshape := h.shape b hb
  obtain ⟨hsep, htmem⟩ := h.separated_cut hb ht hlow hhigh
  have hlinked := h.linked.cons t
  have hcut : b.addr < t ∧ t < b.end := by
    simp only [headerSize, headerGap] at hlow hhigh
    omega
  have hend : t < 2 ^ 64 ∧ b.end - t < 2 ^ 64 := by
    have hwithin := h.within hb
    have hend := h.end_lt
    omega
  obtain ⟨s', hs', hholds, hframe⟩ :=
    splitTail_spec (Holds.self _ s) hsep hlinked List.mem_cons_self hcut.1 hend.1 hend.2
  have hunt := h.untouched_cut hbl hlow hhigh hframe
  refine ⟨s', hs', h.of_untouched hunt (fun _ hc => hc) ?_ ?_ ?_, hunt⟩
  · intro c hc
    rcases List.mem_append.mp hc with hmem | hmem
    · apply Or.inr
      rcases mem_middle hmem with rfl | hmem
      · refine ⟨hshape.back ht hhigh, ?_⟩
        rw [hholds.size t List.mem_cons_self, Function.update_of_ne hcut.1.ne',
          Function.update_self]
      · have hc' : c ∈ l ++ b :: r := mem_of_mem_sides hmem
        have hc'' : c ∈ l ++ b :: r ++ held := List.mem_append_left _ hc'
        have hne : c ≠ b := fun heq => h.not_mem_held (List.mem_append_left _ (heq ▸ hmem))
        have hct : c.addr ≠ t := fun heq => htmem (heq ▸ List.mem_map_of_mem hc')
        refine ⟨h.shape c hc'', ?_⟩
        rw [hholds.size c.addr (List.mem_cons_of_mem _ (List.mem_map_of_mem hc')),
          Function.update_of_ne fun heq => hne (h.eq_of_addr hc'' hb heq),
          Function.update_of_ne hct]
        exact h.sizes c hc''
    · rcases List.mem_cons.mp hmem with rfl | hmem
      · refine Or.inr ⟨hshape.front ht hlow, ?_⟩
        rw [hholds.size b.addr hlinked.mem, Function.update_self]
      · exact Or.inl hmem
  · have htmem' : t ∉ l.map Block.addr ++ r.map Block.addr := by
      rw [← List.map_append]
      exact fun hmem => htmem (List.map_subset _ (fun _ => mem_of_mem_sides) hmem)
    rw [List.map_append, List.map_cons]
    apply hholds.isList (h.links_at.replace (Nat.ne_zero_of_lt hcut.1) htmem')
    intro a ha
    simp only [List.map_append, List.map_cons, List.mem_append, List.mem_cons] at ha ⊢
    tauto
  · have hsplit := tiles_cut (Tiles.extents h.tiles (perm_free l r held b)) hcut.1 hcut.2
    have hperm : (⟨b.addr, t - b.addr⟩ :: ⟨t, b.end - t⟩ :: (l ++ r ++ held)).Perm
        (l ++ ⟨t, b.end - t⟩ :: r ++ ⟨b.addr, t - b.addr⟩ :: held) :=
      ((perm_free l r held _).symm.cons _).trans List.perm_middle.symm
    exact Tiles.extents hsplit hperm

theorem absorbRight (h : Core s (l ++ R :: r) (B :: held)) (hadj : B.end = R.addr) :
    ∃ s', (grow s B.addr R.addr >>= (Heap.unlink · R.addr)) = .ok s' ∧
      Core s' (l ++ r) (⟨B.addr, B.size + R.size⟩ :: held) ∧ Untouched s s' held := by
  have hB : B ∈ l ++ R :: r ++ B :: held := by simp
  have hR : R ∈ l ++ R :: r ++ B :: held := by simp
  have hRend := (h.within hR).2
  have hend := h.end_lt
  have hBend : B.end = B.addr + B.size := rfl
  have hRend' : R.end = R.addr + R.size := rfl
  have hsep := h.separated_cons
  have hlinked := h.linked.cons B.addr
  have hRB : R ≠ B := fun heq => h.not_mem_held (by simp [heq])
  obtain ⟨s₁, hs₁, hholds₁, hframe₁⟩ := grow_spec (Holds.self _ s) hsep List.mem_cons_self
    hlinked.mem (by rw [h.sizes B hB, h.sizes R hR]; omega)
  obtain ⟨s₂, hs₂, hholds₂, hframe₂⟩ := unlink_spec hholds₁ hsep hlinked
  have hunt := h.untouched_cons (hframe₁.trans hframe₂)
  have hperm : (l ++ R :: r ++ B :: held).Perm (B :: R :: (l ++ r ++ held)) :=
    List.perm_middle.trans ((perm_free l r held R).cons B)
  refine ⟨s₂, by rw [hs₁, ok_bind, hs₂], h.of_untouched hunt (List.subset_cons_self _ _) ?_ ?_ ?_,
    hunt⟩
  · intro c hc
    rcases List.mem_append.mp hc with hmem | hmem
    · have hc' : c ∈ l ++ R :: r := mem_of_mem_sides hmem
      have hc'' : c ∈ l ++ R :: r ++ B :: held := List.mem_append_left _ hc'
      have hne : c ≠ B := by
        rintro rfl
        exact (List.nodup_append.mp h.nodup).2.2 _ hc' _ List.mem_cons_self rfl
      have hN : c.addr ∈ B.addr :: (l ++ R :: r).map Block.addr :=
        List.mem_cons_of_mem _ (List.mem_map_of_mem hc')
      exact Or.inr ⟨h.shape c hc'', h.size_of_ne hholds₂ hB hc'' hN hne⟩
    · rcases List.mem_cons.mp hmem with rfl | hmem
      · refine Or.inr ⟨(h.shape B hB).join (h.shape R hR), ?_⟩
        rw [hholds₂.size B.addr List.mem_cons_self, Function.update_self]
        exact congrArg₂ _ (h.sizes B hB) (h.sizes R hR)
      · exact Or.inl hmem
  · rw [List.map_append]
    apply hholds₂.isList h.links_at.unlink
    rw [← List.map_append]
    exact fun a ha => List.mem_cons_of_mem _ (List.map_subset _ (fun _ => mem_of_mem_sides) ha)
  · exact Tiles.extents (tiles_join (Tiles.extents h.tiles hperm) hadj) List.perm_middle.symm

theorem absorbLeft (h : Core s (l ++ L :: r) (B :: held)) (hadj : L.end = B.addr) :
    ∃ s', grow s L.addr B.addr = .ok s' ∧
      Core s' (l ++ ⟨L.addr, L.size + B.size⟩ :: r) held ∧ Untouched s s' held := by
  have hB : B ∈ l ++ L :: r ++ B :: held := by simp
  have hL : L ∈ l ++ L :: r ++ B :: held := by simp
  have hBwithin := h.within hB
  have hend := h.end_lt
  have hBend : B.end = B.addr + B.size := rfl
  have hLend : L.end = L.addr + L.size := rfl
  have hsep := h.separated_cons
  have hlinked := h.linked.cons B.addr
  obtain ⟨s', hs', hholds, hframe⟩ := grow_spec (Holds.self _ s) hsep hlinked.mem
    List.mem_cons_self (by rw [h.sizes B hB, h.sizes L hL]; omega)
  have hunt := h.untouched_cons hframe
  have hperm : (l ++ L :: r ++ B :: held).Perm (L :: B :: (l ++ r ++ held)) :=
    (perm_free l r (B :: held) L).trans (List.perm_middle.cons L)
  refine ⟨s', hs', h.of_untouched hunt (List.subset_cons_self _ _) ?_ ?_ ?_, hunt⟩
  · intro c hc
    rcases List.mem_append.mp hc with hmem | hmem
    · apply Or.inr
      rcases mem_middle hmem with rfl | hmem
      · refine ⟨(h.shape L hL).join (h.shape B hB), ?_⟩
        rw [hholds.size L.addr hlinked.mem, Function.update_self]
        exact congrArg₂ _ (h.sizes L hL) (h.sizes B hB)
      · have hc' : c ∈ l ++ L :: r := mem_of_mem_sides hmem
        have hc'' : c ∈ l ++ L :: r ++ B :: held := List.mem_append_left _ hc'
        have hne : c ≠ L := fun heq => h.not_mem_held (List.mem_append_left _ (heq ▸ hmem))
        have hN : c.addr ∈ B.addr :: (l ++ L :: r).map Block.addr :=
          List.mem_cons_of_mem _ (List.mem_map_of_mem hc')
        exact ⟨h.shape c hc'', h.size_of_ne hholds hL hc'' hN hne⟩
    · exact Or.inl hmem
  · have hmap : (l ++ ⟨L.addr, L.size + B.size⟩ :: r).map Block.addr =
        (l ++ L :: r).map Block.addr := by simp
    rw [hmap]
    exact hholds.isList h.links fun a ha => List.mem_cons_of_mem _ ha
  · exact Tiles.extents (tiles_join (Tiles.extents h.tiles hperm) hadj) (perm_free l r held _).symm

theorem prepend (h : Core s fl (B :: held)) :
    ∃ s', prepend s B.addr = .ok s' ∧ Core s' (B :: fl) held ∧ Untouched s s' held := by
  have hB : B ∈ fl ++ B :: held := by simp
  have hnode := h.node hB
  have hlt := h.addr_lt hB
  have hhead := headD_mem_or (fl.map Block.addr)
  have hhead' : s.links.head = 0 ∨ s.links.head ∈ fl.map Block.addr := by
    rwa [h.links.front.head]
  have hhead₆₄ : s.links.head < 2 ^ 64 := by
    rcases hhead' with h₀ | hmem
    · omega
    · obtain ⟨c, hc, heq⟩ := List.mem_map.mp hmem
      exact heq ▸ h.addr_lt (List.mem_append_left _ hc)
  obtain ⟨s', hs', hholds, hframe⟩ := prepend_spec (Holds.self _ s) h.separated_cons
    List.mem_cons_self hlt (hhead'.imp_right (List.mem_cons_of_mem _)) hhead₆₄
  have hunt := h.untouched_cons hframe
  have hfresh : B.addr ∉ fl.map Block.addr := by
    intro hmem
    obtain ⟨c, hc, heq⟩ := List.mem_map.mp hmem
    have := h.eq_of_addr (List.mem_append_left _ hc) hB heq
    exact (List.nodup_append.mp h.nodup).2.2 c hc B List.mem_cons_self this
  have hperm : (fl ++ B :: held).Perm (B :: fl ++ held) := List.perm_middle
  refine ⟨s', hs', h.of_untouched hunt (List.subset_cons_self _ _) ?_ ?_
    (Tiles.extents h.tiles hperm), hunt⟩
  · intro c hc
    rcases List.mem_append.mp hc with hmem | hmem
    · have hc' := hperm.mem_iff.mpr hc
      have haddr : c.addr ∈ B.addr :: fl.map Block.addr :=
        List.mem_map_of_mem (f := Block.addr) hmem
      exact Or.inr ⟨h.shape c hc', (hholds.size c.addr haddr).trans (h.sizes c hc')⟩
    · exact Or.inl hmem
  · exact hholds.isList (h.links.pushFront hnode.1 hfresh) fun a ha => ha

end Core

end FerricK.Heap
