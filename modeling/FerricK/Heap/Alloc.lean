import FerricK.Heap.Abstract

namespace FerricK.Heap

open Rust LinkedList

variable {s s' : State} {fl held l r done : List Block} {b c : Block}
  {size align needEnd payload : Nat}

theorem alignUp_eq {v a k : Nat} (ha : a = 2 ^ k) (h : v + (a - 1) < 2 ^ 64) :
    alignUp v a = .ok (Align.up v a) := by
  have hpos : 1 ≤ a := ha ▸ Nat.one_le_two_pow
  have hk : k ≤ 64 := by
    by_contra hlt
    have := Nat.pow_lt_pow_right (a := 2) (by omega) (Nat.not_le.mp hlt)
    omega
  rw [alignUp, usub_of_le hpos, ok_bind, uadd_of_lt h, ok_bind, pure_eq_ok]
  congr 1
  rw [ha] at h ⊢
  exact Align.and_unot_mask h hk

theorem alignUp_eight {v : Nat} (h : v + 7 < 2 ^ 64) : alignUp v 8 = .ok (Align.up v 8) :=
  alignUp_eq (k := 3) rfl h

theorem le_payload (b : Block) (hpos : 0 < align) :
    b.addr + headerSize + headerGap ≤ b.payload align := Align.le_up hpos

/-- Payloads are word-aligned whatever the requested alignment. -/
theorem payload_mod (hb : b.Shape) (halign : ∃ k, align = 2 ^ k) : b.payload align % 8 = 0 := by
  obtain ⟨k, rfl⟩ := halign
  have haddr := hb.addr
  rcases Nat.lt_or_ge k 3 with hk | hk
  · have hdvd : 2 ^ k ∣ b.addr + headerSize + headerGap := by
      have h₈ : 2 ^ k ∣ 2 ^ 3 := Nat.pow_dvd_pow 2 hk.le
      refine h₈.trans ?_
      simp only [headerSize, headerGap]
      omega
    rw [Block.payload, Align.up_of_dvd (Nat.two_pow_pos k) hdvd]
    simp only [headerSize, headerGap]
    omega
  · have h₈ : 2 ^ 3 ∣ b.payload (2 ^ k) := (Nat.pow_dvd_pow 2 hk).trans (Align.dvd_up _ _)
    omega

theorem alignUp_overflow {v a k : Nat} (ha : a = 2 ^ k) (h : 2 ^ 64 ≤ v + (a - 1)) :
    alignUp v a = .error .overflow := by
  have hpos : 1 ≤ a := ha ▸ Nat.one_le_two_pow
  rw [alignUp, usub_of_le hpos, ok_bind, uadd, if_neg (by omega), error_bind]

theorem Core.noWrap (h : Core s fl held) (hwrap : s.end + align < 2 ^ 64) (size : Nat) :
    NoWrap size align fl := by
  have hall : ∀ b ∈ fl, b.addr + headerSize + headerGap + (align - 1) < 2 ^ 64 := by
    intro b hb
    have hb' : b ∈ fl ++ held := List.mem_append_left _ hb
    have hwithin := h.within hb'
    have hroom := (h.shape b hb').room
    have hbend : b.end = b.addr + b.size := rfl
    omega
  clear h
  induction fl with
  | nil => trivial
  | cons b fl ih =>
    obtain ⟨hb, hfl⟩ := List.forall_mem_cons.mp hall
    exact ⟨hb, Or.inr (ih hfl)⟩

theorem Core.header_sums (h : Core s fl held) (hb : b ∈ fl ++ held) :
    uadd 64 b.addr headerSize = .ok (b.addr + headerSize) ∧
      uadd 64 (b.addr + headerSize) headerGap = .ok (b.addr + headerSize + headerGap) := by
  have hwithin := h.within hb
  have hend := h.end_lt
  have hroom := (h.shape b hb).room
  have hbend : b.end = b.addr + b.size := rfl
  exact ⟨uadd_of_lt (by omega), uadd_of_lt (by omega)⟩

theorem allocLoop_node (size fuel : Nat) (h : Core s fl held) (hb : b ∈ fl ++ held)
    (halign : ∃ k, align = 2 ^ k)
    (hwrap : b.addr + headerSize + headerGap + (align - 1) < 2 ^ 64) :
    allocLoop s size align (fuel + 1) b.addr =
      if b.Fits size align then
        carve s b.addr b.size (b.payload align) (b.payload align + size)
      else allocLoop s size align fuel (s.field .next b.addr) := by
  obtain ⟨k, hk⟩ := halign
  have hnode := h.node hb
  have hwithin := h.within hb
  have hend := h.end_lt
  have hbend : b.end = b.addr + b.size := rfl
  have hpay : alignUp (b.addr + headerSize + headerGap) align = .ok (b.payload align) :=
    alignUp_eq hk hwrap
  obtain ⟨hsum₁, hsum₂⟩ := h.header_sums hb
  have hsum₃ := uadd_of_lt (w := 64) (a := b.addr) (b := b.size) (by omega)
  simp only [allocLoop, if_neg hnode.1, get_of_node hnode, h.sizes b hb, ok_bind, hsum₁, hsum₂,
    hpay]
  have hfits : b.Fits size align ↔ b.payload align + size ≤ b.end := Iff.rfl
  -- the end of the payload may be out of range altogether
  by_cases hover : b.payload align + size < 2 ^ 64
  · have hadd : checkedAdd 64 (b.payload align) size = some (b.payload align + size) :=
      if_pos hover
    simp only [hadd, hsum₃, ok_bind, hfits, ← hbend, gt_iff_lt, ← Nat.not_le, ite_not]
  · have hadd : checkedAdd 64 (b.payload align) size = none := if_neg hover
    have hnot : ¬b.Fits size align := by
      rw [hfits]
      omega
    simp only [hadd, if_neg hnot]

theorem allocLoop_overflow (size fuel : Nat) (h : Core s fl held) (hb : b ∈ fl ++ held)
    (halign : ∃ k, align = 2 ^ k)
    (hwrap : 2 ^ 64 ≤ b.addr + headerSize + headerGap + (align - 1)) :
    allocLoop s size align (fuel + 1) b.addr = .error .overflow := by
  obtain ⟨k, hk⟩ := halign
  have hnode := h.node hb
  obtain ⟨hsum₁, hsum₂⟩ := h.header_sums hb
  simp only [allocLoop, if_neg hnode.1, get_of_node hnode, ok_bind, hsum₁, hsum₂,
    alignUp_overflow hk hwrap, error_bind]

theorem allocLoop_eq (size : Nat) (h : Core s (done ++ l) held) (halign : ∃ k, align = 2 ^ k)
    (hfuel : l.length < fuel) :
    (NoWrap size align l → allocLoop s size align fuel ((l.map Block.addr).headD 0) =
      match l.find? (fun b => decide (b.Fits size align)) with
      | none => .ok (0, s)
      | some b => carve s b.addr b.size (b.payload align) (b.payload align + size)) ∧
    (¬NoWrap size align l →
      allocLoop s size align fuel ((l.map Block.addr).headD 0) = .error .overflow) := by
  induction l generalizing done fuel with
  | nil =>
    cases fuel with
    | zero => omega
    | succ fuel => simp [allocLoop, NoWrap]
  | cons b l ih =>
    cases fuel with
    | zero => omega
    | succ fuel =>
      have hb : b ∈ done ++ b :: l ++ held := by simp
      have hrest : Core s (done ++ [b] ++ l) held := by simpa using h
      obtain ⟨ihok, iherr⟩ := ih hrest (Nat.lt_of_succ_lt_succ hfuel)
      rw [List.map_cons, List.headD_cons, NoWrap]
      by_cases hwrap : b.addr + headerSize + headerGap + (align - 1) < 2 ^ 64
      · rw [allocLoop_node size fuel h hb halign hwrap, h.next_eq, List.find?_cons]
        by_cases hfits : b.Fits size align
        · exact ⟨fun _ => by simp [hfits], fun hno => absurd ⟨hwrap, Or.inl hfits⟩ hno⟩
        · simp only [hfits, hwrap, decide_false, if_false, true_and, false_or]
          exact ⟨ihok, iherr⟩
      · rw [allocLoop_overflow size fuel h hb halign (not_lt.mp hwrap)]
        exact ⟨fun hyes => absurd hyes.1 hwrap, fun _ => rfl⟩

/-- A payload of `size` bytes from `payload` on fits in `b` behind its header and slot. -/
structure Block.Hosts (b : Block) (payload size : Nat) : Prop where
  low : b.addr + headerSize + headerGap ≤ payload
  high : payload + size ≤ b.end
  word : payload % 8 = 0

theorem Block.Fits.hosts (hfits : b.Fits size align) (hb : b.Shape)
    (halign : ∃ k, align = 2 ^ k) : b.Hosts (b.payload align) size where
  low := le_payload b (by obtain ⟨k, rfl⟩ := halign; exact Nat.two_pow_pos k)
  high := hfits
  word := payload_mod hb halign

theorem front_addr (b : Block) (needEnd : Nat) : (b.front needEnd).addr = b.addr := by
  unfold Block.front
  split <;> rfl

theorem Block.Hosts.front (h : b.Hosts payload size) :
    (b.front (payload + size)).Hosts payload size where
  low := by
    rw [front_addr]
    exact h.low
  high := by
    have hup := Align.le_up (v := payload + size) (a := 8) (by omega)
    unfold Block.front
    split
    · simp only [Block.end]
      omega
    · exact h.high
  word := h.word

theorem detach_spec (h : Core s (l ++ b :: r) held) (hhost : b.Hosts payload size) :
    ∃ s', detach s b.addr b.end (payload + size) (b.end - (payload + size)) = .ok s' ∧
      Core s' (l ++ b.rest (payload + size) ++ r) (b.front (payload + size) :: held) ∧
      Untouched s s' held := by
  have hb : b ∈ l ++ b :: r ++ held := by simp
  have hwithin := h.within hb
  have hend := h.end_lt
  have hlow := hhost.low
  have hhigh := hhost.high
  have hup := Align.le_up (v := payload + size) (a := 8) (by omega)
  have huplt := Align.up_lt (v := payload + size) (a := 8) (by omega)
  have hupmod : Align.up (payload + size) 8 % 8 = 0 := Nat.mod_eq_zero_of_dvd (Align.dvd_up _ _)
  have hworth : worthSplitting b.end (payload + size) (b.end - (payload + size)) =
      .ok (decide (b.Splits (payload + size))) := by
    unfold worthSplitting Block.Splits
    by_cases htail : minBlock ≤ b.end - (payload + size)
    · have hmin := htail
      simp only [minBlock, headerSize] at hmin
      rw [if_pos htail, alignUp_eight (by omega), ok_bind, usub_of_le (by omega), ok_bind]
      simp [htail]
    · simp [htail]
  rw [detach, hworth, ok_bind]
  by_cases hsplit : b.Splits (payload + size)
  · have hrest := hsplit.2
    simp only [minBlock, headerSize] at hrest
    simp only [headerSize, headerGap] at hlow
    obtain ⟨s', hs', hcore, hunt⟩ := h.splitTail (t := Align.up (payload + size) 8) hupmod
      (by simp only [headerSize, headerGap]; omega) (by simp only [headerSize, headerGap]; omega)
    refine ⟨s', ?_, ?_, hunt⟩
    · simp only [hsplit, decide_true, ↓reduceIte]
      rw [alignUp_eight (by omega), ok_bind, usub_of_le (by omega), ok_bind, hs']
    · simpa [Block.rest, Block.front, hsplit] using hcore
  · obtain ⟨s', hs', hcore, hunt⟩ := h.unlink
    exact ⟨s', by simpa [hsplit] using hs', by simpa [Block.rest, Block.front, hsplit] using hcore,
      hunt⟩

theorem Core.putSlot (h : Core s fl (b :: held)) (hhost : b.Hosts payload size) (v : Nat) :
    Core { s with mem := Bytes.storeWord s.mem (payload - headerGap) v } fl (b :: held) ∧
      Untouched s { s with mem := Bytes.storeWord s.mem (payload - headerGap) v } held := by
  have hlow := hhost.low
  have hhigh := hhost.high
  simp only [headerSize, headerGap] at hlow
  have hkeep : ∀ x, x < b.addr + headerSize ∨ b.end ≤ x →
      Bytes.storeWord s.mem (payload - headerGap) v x = s.mem x := by
    intro x hx
    apply Bytes.storeWord_of_not_mem
    rw [Bytes.mem_span_nat]
    simp only [headerSize, headerGap] at *
    omega
  have hout : ∀ c ∈ fl ++ b :: held, c ≠ b → ∀ x, c.addr ≤ x → x < c.end →
      Bytes.storeWord s.mem (payload - headerGap) v x = s.mem x := by
    intro c hc hne x h₁ h₂
    have := h.apart hc (by simp : b ∈ fl ++ b :: held) hne
    exact hkeep x (by omega)
  constructor
  · refine h.congr rfl rfl rfl ?_
    intro c hc x h₁ h₂
    rcases eq_or_ne c b with rfl | hne
    · exact hkeep x (by omega)
    · have hroom := (h.shape c hc).room
      exact hout c hc hne x h₁ (by simp only [Block.end]; omega)
  · refine ⟨rfl, rfl, ?_⟩
    intro c hc x h₁ h₂
    have hne : c ≠ b := by
      rintro rfl
      exact (List.nodup_cons.mp (List.nodup_append.mp h.nodup).2.1).1 hc
    exact hout c (List.mem_append_right _ (List.mem_cons_of_mem _ hc)) hne x h₁ h₂

theorem carve_spec (h : Core s (l ++ b :: r) held) (hhost : b.Hosts payload size) :
    ∃ s', carve s b.addr b.size payload (payload + size) = .ok (payload, s') ∧
      Core s' (l ++ b.rest (payload + size) ++ r) (b.front (payload + size) :: held) ∧
      Untouched s s' held ∧
      Bytes.loadWord s'.mem (payload - headerGap) = payload - headerSize - b.addr := by
  have hb : b ∈ l ++ b :: r ++ held := by simp
  have hwithin := h.within hb
  have hend := h.end_lt
  have hlow := hhost.low
  have hhigh := hhost.high
  have hword := hhost.word
  have hbend : b.addr + b.size = b.end := rfl
  simp only [headerSize, headerGap] at hlow
  obtain ⟨s₁, hs₁, hcore₁, hunt₁⟩ := detach_spec h hhost
  obtain ⟨hcore₂, hunt₂⟩ := hcore₁.putSlot hhost.front (payload - (b.addr + headerSize))
  refine ⟨_, ?_, hcore₂, hunt₁.trans hunt₂, ?_⟩
  · have hslot : deref (payload - headerGap) = .ok () :=
      deref_of_node (by simp only [headerGap]; omega)
    rw [carve, uadd_of_lt (by simp only [headerSize]; omega), ok_bind,
      usub_of_le (by simp only [headerSize]; omega), ok_bind, uadd_of_lt (by omega), ok_bind, hbend,
      usub_of_le hhigh, ok_bind, hs₁, ok_bind,
      usub_of_le (by simp only [headerGap]; omega), ok_bind, hslot, ok_bind, pure_eq_ok]
  · rw [Bytes.loadWord_storeWord (Bytes.nodup_span_nat _ _)] <;>
    · simp only [headerSize]
      omega

theorem Core.length_lt_fuel (h : Core s fl held) : fl.length < s.fuel := by
  have hlen := h.tiles.length_le
  simp only [List.length_map, List.length_append] at hlen
  simp only [State.fuel]
  omega

theorem Core.coalesced_rest (h : Core s (l ++ b :: r) held) (hco : Coalesced (l ++ b :: r))
    (hhost : b.Hosts payload size) : Coalesced (l ++ b.rest (payload + size) ++ r) := by
  have hlow := hhost.low
  have hup := Align.le_up (v := payload + size) (a := 8) (by omega)
  unfold Block.rest
  split
  · next hsplit =>
    have hrest := hsplit.2
    simp only [minBlock, headerSize, headerGap] at hrest hlow
    -- `t` is the tail: it ends where `b` does and starts where nothing else ends
    set t : Block := ⟨Align.up (payload + size) 8, b.end - Align.up (payload + size) 8⟩ with ht
    have htaddr : t.addr = Align.up (payload + size) 8 := rfl
    have htend : t.end = b.end := by
      simp only [Block.end, ht] at *
      omega
    have hmem : ∀ c ∈ l ++ [t] ++ r, c = t ∨ c ∈ l ++ r := by
      intro c hc
      simp only [List.append_assoc, List.singleton_append] at hc
      exact Core.mem_middle hc
    have hin : ∀ c ∈ l ++ r, c.end ≠ t.addr := by
      intro c hc heq
      have hne : c ≠ b := fun he => h.not_mem_held (List.mem_append_left _ (he ▸ hc))
      have hlt := (h.shape c (List.mem_append_left _ (Core.mem_of_mem_sides hc))).lt
      have := h.apart (List.mem_append_left _ (Core.mem_of_mem_sides hc))
        (by simp : b ∈ l ++ b :: r ++ held) hne
      omega
    intro c hc d hd
    rcases hmem c hc with rfl | hc' <;> rcases hmem d hd with rfl | hd'
    · omega
    · rw [htend]
      exact hco b (by simp) d (Core.mem_of_mem_sides hd')
    · exact hin c hc'
    · exact hco c (Core.mem_of_mem_sides hc') d (Core.mem_of_mem_sides hd')
  · rw [List.append_nil]
    intro c hc d hd
    exact hco c (Core.mem_of_mem_sides hc) d (Core.mem_of_mem_sides hd)

theorem alloc_overflow (h : Core s fl held) (layout : Layout)
    (hwrap : ¬NoWrap (max layout.size 1) layout.align fl) : alloc s layout = .error .overflow := by
  have hwalk := (allocLoop_eq (max layout.size 1) (show Core s ([] ++ fl) held by simpa using h)
    layout.align_pow h.length_lt_fuel).2 hwrap
  rwa [← h.links.front.head] at hwalk

theorem alloc_spec (h : Core s fl held) (layout : Layout)
    (hwrap : NoWrap (max layout.size 1) layout.align fl) :
    (firstFit (max layout.size 1) layout.align fl = none ∧ alloc s layout = .ok (0, s)) ∨
    ∃ b fl' s', firstFit (max layout.size 1) layout.align fl = some (b, fl') ∧
      alloc s layout = .ok (b.payload layout.align, s') ∧
      b.Hosts (b.payload layout.align) (max layout.size 1) ∧
      Core s' fl' (b.front (b.payload layout.align + max layout.size 1) :: held) ∧
      (Coalesced fl → Coalesced fl') ∧ Untouched s s' held ∧
      Bytes.loadWord s'.mem (b.payload layout.align - headerGap) =
        b.payload layout.align - headerSize - b.addr := by
  have hwalk := (allocLoop_eq (max layout.size 1) (show Core s ([] ++ fl) held by simpa using h)
    layout.align_pow h.length_lt_fuel).1 hwrap
  rw [← h.links.front.head] at hwalk
  by_cases hnone : ∀ b ∈ fl, ¬b.Fits (max layout.size 1) layout.align
  · refine Or.inl ⟨firstFit_eq_none.mpr hnone, ?_⟩
    rw [List.find?_eq_none.mpr (by simpa using hnone)] at hwalk
    exact hwalk
  · obtain ⟨l, b, r, rfl, hl, hfits⟩ := exists_first hnone
    have hhost := hfits.hosts (h.shape b (by simp)) layout.align_pow
    obtain ⟨s', hs', hcore, hunt, hslot⟩ := carve_spec h hhost
    refine Or.inr ⟨b, _, s', firstFit_append hl hfits, ?_, hhost, hcore,
      fun hco => h.coalesced_rest hco hhost, hunt, hslot⟩
    rw [List.find?_append, List.find?_eq_none.mpr (by simpa using hl)] at hwalk
    simp only [List.find?_cons, hfits, decide_true, Option.none_or] at hwalk
    exact hwalk.trans hs'

end FerricK.Heap
