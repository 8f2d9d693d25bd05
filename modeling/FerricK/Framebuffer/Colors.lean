import FerricK.Framebuffer.Pixels
import FerricK.Lib.Fields

namespace FerricK

open Rust

namespace ChannelMask

def field (m : ChannelMask) : Bits.Field := ⟨m.shift, m.size⟩

def scaled (m : ChannelMask) (value : UInt8) : Nat := value.toNat * (2 ^ m.size - 1) / 255

end ChannelMask

namespace FrameLayout

def red (layout : FrameLayout) : ChannelMask := ⟨layout.redSize.toNat, layout.redShift.toNat⟩
def green (layout : FrameLayout) : ChannelMask := ⟨layout.greenSize.toNat, layout.greenShift.toNat⟩
def blue (layout : FrameLayout) : ChannelMask := ⟨layout.blueSize.toNat, layout.blueShift.toNat⟩

/-- Whole bytes, at most eight, and a mask for each colour in them. -/
structure MasksPass (layout : FrameLayout) : Prop where
  bits : 0 < layout.bpp.toNat ∧ layout.bpp.toNat % 8 = 0 ∧ layout.bpp.toNat ≤ 64
  masks : ∀ m ∈ [layout.red, layout.green, layout.blue],
    0 < m.size ∧ m.shift + m.size ≤ layout.bpp.toNat

structure GeometryPasses (layout : FrameLayout) : Prop where
  apart : [layout.red, layout.green, layout.blue].Pairwise fun a b => a.field.Apart b.field
  row : layout.width.toNat * (layout.bpp.toNat / 8) ≤ layout.pitch.toNat
  area : layout.pitch.toNat * layout.height.toNat < 2 ^ 64

/-- No mask that the overlap checks come to is 64 bits wide, and no channel of a layout that passes
all checks is wider than 56. -/
structure Encodable (layout : FrameLayout) : Prop where
  checks : layout.MasksPass → layout.red.size < 64 ∧ layout.green.size < 64 ∧
    (layout.red.field.Apart layout.green.field → layout.blue.size < 64)
  channels : layout.MasksPass → layout.GeometryPasses →
    ∀ m ∈ [layout.red, layout.green, layout.blue], m.size ≤ 56

end FrameLayout

namespace FrameBuffer

def channels (fb : FrameBuffer) : List (ChannelMask × (Rgb → UInt8)) :=
  [(fb.red, Rgb.r), (fb.green, Rgb.g), (fb.blue, Rgb.b)]

/-- Every colour has its word: the channels scaled to their masks, and nothing else. -/
structure Exact (fb : FrameBuffer) : Prop where
  encodes : ∀ color, ∃ word, fb.encode color = .ok word ∧ word < 2 ^ (8 * fb.bytesPerPixel) ∧
    (∀ ch ∈ fb.channels, ch.1.field.get word = ch.1.scaled (ch.2 color)) ∧
    (∀ i, word.testBit i = true → ∃ ch ∈ fb.channels, i ∈ ch.1.field.bits)
  ends : ∀ color word, fb.encode color = .ok word → ∀ ch ∈ fb.channels,
    (ch.2 color = 0 → ch.1.field.get word = 0) ∧
      (ch.2 color = 255 → ch.1.field.get word = 2 ^ ch.1.size - 1)
  mono : ∀ color color' word word', fb.encode color = .ok word → fb.encode color' = .ok word' →
    ∀ ch ∈ fb.channels, ch.2 color ≤ ch.2 color' → ch.1.field.get word ≤ ch.1.field.get word'

structure ColorsExact (layout : FrameLayout) : Prop where
  returns : ∃ r, fromLayout layout = .ok r
  exact : ∀ fb, fromLayout layout = .ok (.ok fb) → Exact fb

variable {fb : FrameBuffer} {layout : FrameLayout} {m a b c : ChannelMask} {color : Rgb}
  {word : Nat}

theorem scaled_lt (m : ChannelMask) (value : UInt8) : m.scaled value < 2 ^ m.size := by
  have hvalue : value.toNat ≤ 255 := Nat.le_of_lt_succ value.toNat_lt
  have hmul : value.toNat * (2 ^ m.size - 1) ≤ 255 * (2 ^ m.size - 1) :=
    Nat.mul_le_mul_right _ hvalue
  have hpos : 0 < 2 ^ m.size := Nat.two_pow_pos _
  rw [ChannelMask.scaled]
  omega

theorem scaled_mono (m : ChannelMask) {value value' : UInt8} (h : value ≤ value') :
    m.scaled value ≤ m.scaled value' :=
  Nat.div_le_div_right (Nat.mul_le_mul_right _ h)

def packed (fb : FrameBuffer) (color : Rgb) : List (Bits.Field × Nat) :=
  fb.channels.map fun ch => (ch.1.field, ch.1.scaled (ch.2 color))

theorem fit_packed (fb : FrameBuffer) (color : Rgb) : Bits.Fit (fb.packed color) := by
  intro e he
  obtain ⟨ch, -, rfl⟩ := List.mem_map.mp he
  exact scaled_lt ch.1 _

theorem encodeChannel_put (h : m.Valid) (hnarrow : m.size ≤ 56) (value : UInt8) :
    encodeChannel m value = .ok (m.field.put (m.scaled value)) := by
  have hlt : m.field.put (m.scaled value) < 2 ^ 64 :=
    Bits.Field.put_lt (scaled_lt m value) h.fits
  rw [encodeChannel_eq h hnarrow]
  exact congrArg Except.ok (Nat.mod_eq_of_lt hlt)

theorem Ready.encode_eq (hfb : Ready fb) (color : Rgb) :
    fb.encode color = .ok (Bits.pack (fb.packed color)) := by
  rw [encode, encodeChannel_put hfb.valid.red hfb.narrow.red, ok_bind,
    encodeChannel_put hfb.valid.green hfb.narrow.green, ok_bind,
    encodeChannel_put hfb.valid.blue hfb.narrow.blue, ok_bind, pure_eq_ok]
  simp only [packed, channels, List.map_cons, List.map_nil, Bits.pack, Nat.or_zero, Nat.lor_assoc]

theorem Ready.exact (hfb : Ready fb) (hpacked : Packed fb) (hapart :
    [fb.red, fb.green, fb.blue].Pairwise fun a b => a.field.Apart b.field) : Exact fb := by
  have hpair : ∀ color, (fb.packed color).Pairwise fun e e' => e.1.Apart e'.1 := by
    intro color
    simpa [packed, channels] using hapart
  have hget : ∀ {color word}, fb.encode color = .ok word → ∀ ch ∈ fb.channels,
      ch.1.field.get word = ch.1.scaled (ch.2 color) := by
    intro color word hword ch hch
    rw [hfb.encode_eq] at hword
    cases hword
    exact Bits.get_pack (fit_packed fb color) (hpair color) _ (List.mem_map_of_mem hch)
  constructor
  · intro color
    have hfits : ∀ e ∈ fb.packed color, e.1.shift + e.1.size ≤ 8 * fb.bytesPerPixel := by
      have hred := hpacked.red
      have hgreen := hpacked.green
      have hblue := hpacked.blue
      simpa [packed, channels, ChannelMask.field] using ⟨hred, hgreen, hblue⟩
    refine ⟨_, hfb.encode_eq color, Bits.pack_lt (fit_packed fb color) hfits,
      hget (hfb.encode_eq color), fun i hi => ?_⟩
    obtain ⟨e, he, hbits⟩ := Bits.mem_bits_of_pack (fit_packed fb color) hi
    obtain ⟨ch, hch, rfl⟩ := List.mem_map.mp he
    exact ⟨ch, hch, hbits⟩
  · intro color word hword ch hch
    rw [hget hword ch hch]
    constructor
    · intro hzero
      rw [hzero, ChannelMask.scaled, UInt8.toNat_zero, Nat.zero_mul, Nat.zero_div]
    · intro hfull
      rw [hfull, ChannelMask.scaled]
      exact Nat.mul_div_cancel_left _ (by decide)
  · intro color color' word word' hword hword' ch hch hle
    rw [hget hword ch hch, hget hword' ch hch]
    exact scaled_mono ch.1 hle

theorem bitMask_eq (hfits : m.shift + m.size ≤ 64) (hpos : 0 < m.size) (hlt : m.size < 64) :
    m.bitMask = .ok m.field.mask := by
  have hmask : m.field.mask < 2 ^ 64 :=
    Bits.Field.put_lt (Nat.sub_lt (Nat.two_pow_pos _) (by decide)) hfits
  rw [ChannelMask.bitMask, ← bind_assoc, max_eq hlt, ok_bind, ushl_of_lt (by omega)]
  exact congrArg Except.ok (Nat.mod_eq_of_lt hmask)

def Slot (m : ChannelMask) : Prop := 0 < m.size ∧ m.shift + m.size ≤ 64

theorem disjoint_eq (ha : Slot a) (hb : Slot b) (ha' : a.size < 64) (hb' : b.size < 64) :
    a.disjoint b = .ok (decide (a.field.Apart b.field)) := by
  rw [ChannelMask.disjoint, bitMask_eq ha.2 ha.1 ha', ok_bind, bitMask_eq hb.2 hb.1 hb', ok_bind,
    pure_eq_ok]
  exact congrArg Except.ok (decide_eq_decide.mpr (Bits.Field.mask_and_eq_zero ha.1 hb.1))

/-- The third mask is looked at only where the first two do not meet. -/
theorem allDisjoint_returns (ha : Slot a) (hb : Slot b) (hc : Slot c) :
    (∃ v, ChannelMask.allDisjoint a b c = .ok v) ↔
      a.size < 64 ∧ b.size < 64 ∧ (a.field.Apart b.field → c.size < 64) := by
  by_cases hsizes : a.size < 64 ∧ b.size < 64
  · obtain ⟨ha', hb'⟩ := hsizes
    rw [ChannelMask.allDisjoint, disjoint_eq ha hb ha' hb', ok_bind]
    by_cases hab : a.field.Apart b.field
    · by_cases hc' : c.size < 64
      · rw [disjoint_eq hb hc hb' hc', disjoint_eq hc ha hc' ha']
        refine iff_of_true ?_ ⟨ha', hb', fun _ => hc'⟩
        rw [decide_eq_true hab, if_pos rfl, ok_bind]
        split <;> exact ⟨_, rfl⟩
      · refine iff_of_false ?_ fun h => hc' (h.2.2 hab)
        rintro ⟨v, hv⟩
        rw [decide_eq_true hab, if_pos rfl] at hv
        obtain ⟨w, hbc, -⟩ := bind_eq_ok.mp hv
        exact hc' (disjoint_eq_ok hbc).2
    · rw [decide_eq_false hab]
      exact iff_of_true ⟨false, rfl⟩ ⟨ha', hb', fun h => absurd h hab⟩
  · refine iff_of_false ?_ fun h => hsizes ⟨h.1, h.2.1⟩
    rintro ⟨v, hv⟩
    obtain ⟨w, hab, -⟩ := bind_eq_ok.mp hv
    exact hsizes (disjoint_eq_ok hab)

theorem allDisjoint_iff (ha : Slot a) (hb : Slot b) (hc : Slot c) (ha' : a.size < 64)
    (hb' : b.size < 64) (hc' : c.size < 64) : ChannelMask.allDisjoint a b c = .ok true ↔
      [a, b, c].Pairwise fun a b => a.field.Apart b.field := by
  have hsymm : c.field.Apart a.field ↔ a.field.Apart c.field := ⟨.symm, .symm⟩
  rw [ChannelMask.allDisjoint, disjoint_eq ha hb ha' hb', ok_bind, disjoint_eq hb hc hb' hc',
    disjoint_eq hc ha hc' ha', ok_bind]
  by_cases hab : a.field.Apart b.field
  · by_cases hbc : b.field.Apart c.field
    · simp [hab, hbc, hsymm]
    · simp [hab, hbc]
  · simp [hab]

theorem mask_new_of_fits {size shift : UInt8} {bpp : UInt16}
    (h : 0 < size.toNat ∧ shift.toNat + size.toNat ≤ bpp.toNat) :
    ChannelMask.new size shift bpp = .ok ⟨size.toNat, shift.toNat⟩ := by
  rw [ChannelMask.new, if_neg]
  rw [← UInt8.toNat_inj, UInt8.toNat_zero]
  omega

theorem eq_of_mask_new {size shift : UInt8} {bpp : UInt16}
    (h : ChannelMask.new size shift bpp = .ok m) : m = ⟨size.toNat, shift.toNat⟩ := by
  unfold ChannelMask.new at h
  split at h
  · cases h
  · exact (Except.ok.inj h).symm

theorem masksPass_of_new {red green blue : ChannelMask}
    (hbits : 0 < layout.bpp.toNat ∧ layout.bpp.toNat % 8 = 0 ∧ layout.bpp.toNat ≤ 64)
    (hred : ChannelMask.new layout.redSize layout.redShift layout.bpp = .ok red)
    (hgreen : ChannelMask.new layout.greenSize layout.greenShift layout.bpp = .ok green)
    (hblue : ChannelMask.new layout.blueSize layout.blueShift layout.bpp = .ok blue) :
    layout.MasksPass := by
  obtain rfl := eq_of_mask_new hred
  obtain rfl := eq_of_mask_new hgreen
  obtain rfl := eq_of_mask_new hblue
  refine ⟨hbits, ?_⟩
  simp only [List.forall_mem_cons]
  exact ⟨mask_new_eq_ok hred, mask_new_eq_ok hgreen, mask_new_eq_ok hblue, by simp⟩

theorem masksPass_cases (h : layout.MasksPass) :
    Slot layout.red ∧ Slot layout.green ∧ Slot layout.blue := by
  have hbits := h.bits.2.2
  have hmasks := h.masks
  simp only [List.forall_mem_cons] at hmasks
  obtain ⟨hred, hgreen, hblue, -⟩ := hmasks
  exact ⟨⟨hred.1, by omega⟩, ⟨hgreen.1, by omega⟩, ⟨hblue.1, by omega⟩⟩

theorem fromLayout_returns : (∃ r, fromLayout layout = .ok r) ↔ (layout.MasksPass →
    ∃ v, ChannelMask.allDisjoint layout.red layout.green layout.blue = .ok v) := by
  by_cases hmasks : layout.MasksPass
  · have hbits := hmasks.bits
    have hfits := hmasks.masks
    simp only [List.forall_mem_cons] at hfits
    obtain ⟨hred, hgreen, hblue, -⟩ := hfits
    have hwidth := layout.width.toNat_lt
    have hrow : layout.width.toNat * (layout.bpp.toNat / 8) ≤ layout.width.toNat * 8 :=
      Nat.mul_le_mul_left _ (by omega)
    unfold fromLayout
    simp only [mask_new_of_fits hred, mask_new_of_fits hgreen, mask_new_of_fits hblue]
    rw [if_neg (by omega)]
    constructor
    · rintro ⟨r, hr⟩ -
      obtain ⟨v, hv, -⟩ := bind_eq_ok.mp hr
      exact ⟨v, hv⟩
    · intro hreturns
      obtain ⟨v, hv⟩ := hreturns hmasks
      rw [FrameLayout.red, FrameLayout.green, FrameLayout.blue] at hv
      rw [hv, ok_bind, umul_of_lt (by omega), ok_bind]
      split <;> exact ⟨_, rfl⟩
  · refine iff_of_true ?_ fun h => absurd h hmasks
    unfold fromLayout
    dsimp only
    split
    · exact ⟨_, rfl⟩
    next hbits =>
    split
    · next red green blue hred hgreen hblue =>
      exact absurd (masksPass_of_new (by omega) hred hgreen hblue) hmasks
    all_goals exact ⟨_, rfl⟩

theorem accepted_iff : Accepted layout fb ↔ layout.MasksPass ∧ layout.GeometryPasses ∧
    (∀ m ∈ [layout.red, layout.green, layout.blue], m.size < 64) ∧
    fb = ⟨layout.ptr.toNat, layout.surface, layout.width.toNat, layout.height.toNat,
      layout.pitch.toNat, layout.bpp.toNat / 8, layout.red, layout.green, layout.blue⟩ := by
  constructor
  · intro h
    have hmasks := masksPass_of_new h.bits h.red h.green h.blue
    have hred : fb.red = layout.red := eq_of_mask_new h.red
    have hgreen : fb.green = layout.green := eq_of_mask_new h.green
    have hblue : fb.blue = layout.blue := eq_of_mask_new h.blue
    obtain ⟨hr, hg, hb⟩ := masksPass_cases hmasks
    have hdisjoint := h.disjoint
    rw [hred, hgreen, hblue] at hdisjoint
    obtain ⟨hr', hg', hb'⟩ := allDisjoint_eq_ok hdisjoint
    refine ⟨hmasks, ⟨(allDisjoint_iff hr hg hb hr' hg' hb').mp hdisjoint, h.row, h.area⟩, ?_, ?_⟩
    · simpa using ⟨hr', hg', hb'⟩
    · rw [← hred, ← hgreen, ← hblue]
      exact h.eq
  · rintro ⟨hmasks, hgeometry, hsizes, rfl⟩
    obtain ⟨hr, hg, hb⟩ := masksPass_cases hmasks
    have hfits := hmasks.masks
    simp only [List.forall_mem_cons] at hfits hsizes
    obtain ⟨hred, hgreen, hblue, -⟩ := hfits
    obtain ⟨hr', hg', hb', -⟩ := hsizes
    exact ⟨hmasks.bits, mask_new_of_fits hred, mask_new_of_fits hgreen, mask_new_of_fits hblue,
      (allDisjoint_iff hr hg hb hr' hg' hb').mpr hgeometry.apart, hgeometry.row, hgeometry.area,
      rfl⟩

theorem colors_exact_iff (layout : FrameLayout) : ColorsExact layout ↔ layout.Encodable := by
  constructor
  · rintro ⟨hreturns, hexact⟩
    have hchecks : layout.MasksPass → layout.red.size < 64 ∧ layout.green.size < 64 ∧
        (layout.red.field.Apart layout.green.field → layout.blue.size < 64) := by
      intro hmasks
      obtain ⟨hred, hgreen, hblue⟩ := masksPass_cases hmasks
      exact (allDisjoint_returns hred hgreen hblue).mp (fromLayout_returns.mp hreturns hmasks)
    refine ⟨hchecks, fun hmasks hgeometry => ?_⟩
    obtain ⟨hred, hgreen, hblue⟩ := hchecks hmasks
    have hapart : layout.red.field.Apart layout.green.field := by
      have hpair := hgeometry.apart
      simp only [List.pairwise_cons, List.forall_mem_cons] at hpair
      exact hpair.1.1
    have haccepted : Accepted layout _ := accepted_iff.mpr
      ⟨hmasks, hgeometry, by simp [hred, hgreen, hblue hapart], rfl⟩
    have hok := fromLayout_of_accepted haccepted
    obtain ⟨word, hword, -⟩ := (hexact _ hok).encodes ⟨0xC0, 0xC0, 0xC0⟩
    have hnarrow := (Valid.of_fromLayout hok).narrow_of_encode hword
    simpa using ⟨hnarrow.red, hnarrow.green, hnarrow.blue⟩
  · rintro ⟨hchecks, hchannels⟩
    constructor
    · refine fromLayout_returns.mpr fun hmasks => ?_
      obtain ⟨hred, hgreen, hblue⟩ := masksPass_cases hmasks
      exact (allDisjoint_returns hred hgreen hblue).mpr (hchecks hmasks)
    · intro fb hok
      obtain ⟨hmasks, hgeometry, -, heq⟩ := accepted_iff.mp (fromLayout_cases hok)
      have hsizes := hchannels hmasks hgeometry
      simp only [List.forall_mem_cons] at hsizes
      have hready : Ready fb := ⟨Valid.of_fromLayout hok, by
        rw [heq]
        exact ⟨hsizes.1, hsizes.2.1, hsizes.2.2.1⟩⟩
      exact hready.exact (Packed.of_fromLayout hok) (by rw [heq]; exact hgeometry.apart)

def wholeWord : FrameLayout :=
  { FrameLayout.screen 1 1 8 with bpp := 64, redSize := 64, redShift := 0 }

def wideRed : FrameLayout :=
  { FrameLayout.screen 1 1 8 with
    bpp := 64, redSize := 57, redShift := 7, greenSize := 1, greenShift := 1, blueSize := 1,
    blueShift := 0 }

theorem not_colors_exact : ¬ColorsExact wholeWord ∧ ¬ColorsExact wideRed := by
  constructor
  · rintro ⟨⟨r, hr⟩, -⟩
    have hstops : fromLayout wholeWord = .error .overflow := rfl
    rw [hstops] at hr
    cases hr
  · rintro ⟨-, hexact⟩
    have hok : fromLayout wideRed = .ok (.ok _) := rfl
    obtain ⟨word, hword, -⟩ := (hexact _ hok).encodes ⟨0xC0, 0xC0, 0xC0⟩
    exact absurd ((Valid.of_fromLayout hok).narrow_of_encode hword).red (by decide)

end FrameBuffer

end FerricK
