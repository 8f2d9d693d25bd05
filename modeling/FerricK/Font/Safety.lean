import FerricK.Font.Lookup

namespace FerricK.Font

open Rust

def word (data : List UInt8) (k n : Nat) : Nat := Bytes.ofLE ((data.drop k).take n)

structure WellShaped (data : List UInt8) : Prop where
  psf1 : word data 0 2 = psf1Magic → word data 3 1 ≠ 0
  rows : word data 0 2 ≠ psf1Magic →
    (word data 24 4 - 1) * (word data 20 4 / word data 24 4) + (word data 28 4 - 1) / 8 <
      word data 20 4
  table : word data 0 2 ≠ psf1Magic → word data 12 4 % 2 = 1 → ∀ c : Char,
    Countable (data.drop (word data 8 4 + word data 16 4 * word data 20 4)) c.toNat

def glyphRange (f : Font) (i : Nat) : List UInt8 :=
  (f.data.bytes.drop (f.glyphDataOffset + i * f.glyphBytes)).take f.glyphBytes

/-- Dimensions are positive, queries return, answer exactly in range, and do not depend on the
bytes of other glyphs. -/
structure Safe (f : Font) : Prop where
  dims : 0 < f.width ∧ 0 < f.height ∧ 0 < f.glyphCount
  lookup : ∀ c, ∃ r, f.glyphIndexFor c = .ok r
  glyph : ∀ i < 2 ^ 32, ∃ r, f.glyph i = .ok r ∧ (r.isSome ↔ i < f.glyphCount)
  pixel : ∀ i < 2 ^ 32, ∀ x < 2 ^ 32, ∀ y < 2 ^ 32, ∃ r, f.glyphPixel i x y = .ok r ∧
    (r.isSome ↔ i < f.glyphCount ∧ x < f.width ∧ y < f.height)
  own_bytes : ∀ i < f.glyphCount, ∀ data : Slice, data.bytes.length = f.data.bytes.length →
    { f with data := data }.glyphRange i = f.glyphRange i → ∀ x y,
      { f with data := data }.glyph i = f.glyph i ∧
        { f with data := data }.glyphPixel i x y = f.glyphPixel i x y

structure Laid (f : Font) : Prop where
  count_pos : 0 < f.glyphCount
  count_lt : f.glyphCount < 2 ^ 32
  bytes_lt : f.glyphBytes < 2 ^ 32
  row_lt : f.bytesPerRow < 2 ^ 32
  width_lt : f.width < 2 ^ 32
  height_lt : f.height < 2 ^ 32
  room : f.glyphDataOffset + f.glyphCount * f.glyphBytes = f.unicodeOffset
  fits : f.unicodeOffset ≤ f.data.bytes.length

variable {f : Font} {data : Slice} {bytes b : List UInt8} {i x y pos glyph target fuel : Nat}

theorem word_lt (data : List UInt8) (k n : Nat) : word data k n < 256 ^ n := by
  have hlt := Bytes.ofLE_lt ((data.drop k).take n)
  refine Nat.lt_of_lt_of_le hlt (Nat.pow_le_pow_right (by omega) ?_)
  simp only [List.length_take]
  omega

theorem field_ok {k : Nat} (hk : k + 4 ≤ data.bytes.length) :
    slice data.bytes k (k + 4) >>= u32le = .ok (word data.bytes k 4) := by
  rw [slice_of_le (by omega), ok_bind, Nat.add_sub_cancel_left,
    u32le_eq (by simp only [List.length_take, List.length_drop]; omega), List.take_take,
    Nat.min_self, word]

theorem index_eq_word {k : Nat} {v : UInt8} (h : index data.bytes k = .ok v) :
    word data.bytes k 1 = v.toNat := by
  have hget := index_eq_ok.mp h
  obtain ⟨hk, hv⟩ := List.getElem?_eq_some_iff.mp hget
  rw [word, List.drop_eq_getElem_cons hk, hv]
  simp [Bytes.ofLE]

def psf1Font (data : Slice) (mode charSize : UInt8) : Font where
  data := data
  version := 1
  width := 8
  height := charSize.toNat
  bytesPerRow := 1
  glyphCount := if mode &&& 1 ≠ 0 then 512 else 256
  glyphBytes := charSize.toNat
  glyphDataOffset := psf1Header
  hasUnicode := mode &&& 2 ≠ 0
  unicodeOffset := psf1Header + (if mode &&& 1 ≠ 0 then 512 else 256) * charSize.toNat

theorem psf1Font_glyphCount (data : Slice) (mode charSize : UInt8) :
    256 ≤ (psf1Font data mode charSize).glyphCount ∧
      (psf1Font data mode charSize).glyphCount ≤ 512 := by
  simp only [psf1Font]
  split <;> omega

theorem parsePsf1_eq {mode charSize : UInt8} (hmode : data.bytes[2]? = some mode)
    (hsize : data.bytes[3]? = some charSize) : parsePsf1 data =
      .ok (if (psf1Font data mode charSize).unicodeOffset > data.bytes.length then .error .corrupt
        else .ok (psf1Font data mode charSize)) := by
  obtain ⟨hlen, -⟩ := List.getElem?_eq_some_iff.mp hsize
  obtain ⟨-, hcount⟩ := psf1Font_glyphCount data mode charSize
  have hlt := charSize.toNat_lt
  have hmul : (psf1Font data mode charSize).glyphCount * charSize.toNat ≤ 512 * 255 :=
    Nat.mul_le_mul hcount (by omega)
  simp only [psf1Font] at hmul
  rw [parsePsf1, if_neg (by simp only [psf1Header]; omega), index_eq_ok.mpr hmode, ok_bind,
    index_eq_ok.mpr hsize, ok_bind]
  simp only
  rw [umul_of_lt (by omega), ok_bind,
    checkedAdd_eq_some.mpr ⟨by simp only [psf1Header]; omega, rfl⟩]
  by_cases hfits : (psf1Font data mode charSize).unicodeOffset > data.bytes.length
  · rw [if_pos hfits]
    exact if_pos hfits
  · rw [if_neg hfits]
    exact if_neg hfits

theorem parsePsf1_cases (h : parsePsf1 data = .ok (.ok f)) :
    f.data = data ∧ Laid f ∧ f.version = 1 ∧ f.width = 8 ∧ f.bytesPerRow = 1 ∧
      f.height = word data.bytes 3 1 ∧ f.glyphBytes = word data.bytes 3 1 := by
  by_cases hlen : data.bytes.length < psf1Header
  · rw [parsePsf1, if_pos hlen] at h
    exact nomatch h
  simp only [psf1Header] at hlen
  have hmode := List.getElem?_eq_getElem (show 2 < data.bytes.length by omega)
  have hsize := List.getElem?_eq_getElem (show 3 < data.bytes.length by omega)
  have hword := index_eq_word (index_eq_ok.mpr hsize)
  rw [parsePsf1_eq hmode hsize, Except.ok.injEq] at h
  split at h
  · exact nomatch h
  next hfits =>
  cases h
  have hlt := data.bytes[3].toNat_lt
  obtain ⟨hmin, hmax⟩ := psf1Font_glyphCount data data.bytes[2] data.bytes[3]
  refine ⟨rfl, ⟨by omega, by omega, ?_, ?_, ?_, ?_, rfl, not_lt.mp hfits⟩, rfl, rfl, rfl,
    hword.symm, hword.symm⟩ <;> simp only [psf1Font] <;> omega

def psf2Font (data : Slice) : Font where
  data := data
  version := 2
  width := word data.bytes 28 4
  height := word data.bytes 24 4
  bytesPerRow := word data.bytes 20 4 / word data.bytes 24 4
  glyphCount := word data.bytes 16 4
  glyphBytes := word data.bytes 20 4
  glyphDataOffset := word data.bytes 8 4
  hasUnicode := word data.bytes 12 4 &&& 1 ≠ 0
  unicodeOffset := word data.bytes 8 4 + word data.bytes 16 4 * word data.bytes 20 4

theorem parsePsf2_eq (hlen : psf2Header ≤ data.bytes.length) : parsePsf2 data =
    .ok (if word data.bytes 8 4 < psf2Header ∨ word data.bytes 16 4 = 0 ∨
        word data.bytes 20 4 = 0 ∨ word data.bytes 24 4 = 0 ∨ word data.bytes 28 4 = 0 then
      .error .corrupt
    else if (psf2Font data).unicodeOffset > data.bytes.length then .error .corrupt
    else .ok (psf2Font data)) := by
  have hfield : ∀ k ≤ 28, slice data.bytes k (k + 4) >>= u32le = .ok (word data.bytes k 4) :=
    fun k hk => field_ok (by simp only [psf2Header] at hlen; omega)
  obtain ⟨b₁, hb₁, hheadersize⟩ := bind_eq_ok.mp (hfield 8 (by decide))
  obtain ⟨b₂, hb₂, hflags⟩ := bind_eq_ok.mp (hfield 12 (by decide))
  obtain ⟨b₃, hb₃, hnumglyph⟩ := bind_eq_ok.mp (hfield 16 (by decide))
  obtain ⟨b₄, hb₄, hbytes⟩ := bind_eq_ok.mp (hfield 20 (by decide))
  obtain ⟨b₅, hb₅, hheight⟩ := bind_eq_ok.mp (hfield 24 (by decide))
  obtain ⟨b₆, hb₆, hwidth⟩ := bind_eq_ok.mp (hfield 28 (by decide))
  have hoffset := word_lt data.bytes 8 4
  have hmul : word data.bytes 16 4 * word data.bytes 20 4 ≤ (2 ^ 32 - 1) * (2 ^ 32 - 1) :=
    Nat.mul_le_mul (Nat.le_of_lt_succ (word_lt data.bytes 16 4))
      (Nat.le_of_lt_succ (word_lt data.bytes 20 4))
  rw [parsePsf2, if_neg (by omega), hb₁, ok_bind, hheadersize, ok_bind, hb₂, ok_bind, hflags,
    ok_bind, hb₃, ok_bind, hnumglyph, ok_bind, hb₄, ok_bind, hbytes, ok_bind, hb₅, ok_bind, hheight,
    ok_bind, hb₆, ok_bind, hwidth, ok_bind]
  split
  · rfl
  · simp only
    rw [umul_of_lt (by omega), ok_bind, checkedAdd_eq_some.mpr ⟨by omega, rfl⟩]
    by_cases hfits : (psf2Font data).unicodeOffset > data.bytes.length
    · rw [if_pos hfits]
      exact if_pos hfits
    · rw [if_neg hfits]
      exact if_neg hfits

theorem parsePsf2_font (h : parsePsf2 data = .ok (.ok f)) : f = psf2Font data ∧
    (0 < word data.bytes 16 4 ∧ 0 < word data.bytes 20 4 ∧ 0 < word data.bytes 24 4 ∧
      0 < word data.bytes 28 4) ∧ (psf2Font data).unicodeOffset ≤ data.bytes.length := by
  by_cases hlen : data.bytes.length < psf2Header
  · rw [parsePsf2, if_pos hlen] at h
    exact nomatch h
  rw [parsePsf2_eq (not_lt.mp hlen), Except.ok.injEq] at h
  split at h
  · exact nomatch h
  split at h
  · exact nomatch h
  · cases h
    exact ⟨rfl, by omega, by omega⟩

theorem psf2Font_hasUnicode (data : Slice) :
    (psf2Font data).hasUnicode = decide (word data.bytes 12 4 % 2 = 1) := by
  have hflag := Nat.and_one_is_mod (word data.bytes 12 4)
  rw [psf2Font, decide_eq_decide]
  omega

theorem parsePsf2_cases (h : parsePsf2 data = .ok (.ok f)) :
    f.data = data ∧ Laid f ∧ f.version = 2 ∧ f.width = word data.bytes 28 4 ∧ 0 < f.width ∧
      f.height = word data.bytes 24 4 ∧ 0 < f.height ∧ f.glyphBytes = word data.bytes 20 4 ∧
      f.bytesPerRow = word data.bytes 20 4 / word data.bytes 24 4 ∧
      f.hasUnicode = decide (word data.bytes 12 4 % 2 = 1) ∧
      f.unicodeOffset = word data.bytes 8 4 + word data.bytes 16 4 * word data.bytes 20 4 := by
  obtain ⟨rfl, ⟨hnum₀, hper₀, hrows₀, hcols₀⟩, hfits⟩ := parsePsf2_font h
  have hnum := word_lt data.bytes 16 4
  have hper := word_lt data.bytes 20 4
  have hrows := word_lt data.bytes 24 4
  have hcols := word_lt data.bytes 28 4
  have hdiv := Nat.div_le_self (word data.bytes 20 4) (word data.bytes 24 4)
  exact ⟨rfl, ⟨hnum₀, hnum, hper, Nat.lt_of_le_of_lt hdiv hper, hcols, hrows, rfl, hfits⟩, rfl, rfl,
    hcols₀, rfl, hrows₀, rfl, rfl, psf2Font_hasUnicode data, rfl⟩

theorem parse_eq_parsePsf1 (hlen : 2 ≤ data.bytes.length)
    (hmagic : word data.bytes 0 2 = psf1Magic) : parse data = parsePsf1 data := by
  rw [parse, if_neg (by omega), u16le_eq hlen, ok_bind]
  exact if_pos hmagic

theorem parse_eq_parsePsf2 (hlen : 4 ≤ data.bytes.length) (hne : word data.bytes 0 2 ≠ psf1Magic)
    (hmagic : word data.bytes 0 4 = psf2Magic) : parse data = parsePsf2 data := by
  rw [parse, if_neg (by omega), u16le_eq (by omega), ok_bind]
  refine (if_neg hne).trans ?_
  rw [if_neg (by omega), u32le_eq hlen, ok_bind]
  exact if_pos hmagic

theorem parse_cases (h : parse data = .ok (.ok f)) :
    word data.bytes 0 2 = psf1Magic ∧ parsePsf1 data = .ok (.ok f) ∨
      word data.bytes 0 2 ≠ psf1Magic ∧ parsePsf2 data = .ok (.ok f) := by
  unfold parse at h
  split at h
  · exact nomatch h
  next hlen =>
  rw [u16le_eq (by omega), ok_bind] at h
  split at h
  · next hmagic => exact Or.inl ⟨hmagic, h⟩
  next hmagic =>
  split at h
  · exact nomatch h
  next hlen' =>
  rw [u32le_eq (by omega), ok_bind] at h
  split at h
  · exact Or.inr ⟨hmagic, h⟩
  · exact nomatch h

theorem unicodeLookupV1_eq (f : Font) (hcount : f.glyphCount < 2 ^ 32) (c : Char) :
    f.unicodeLookupV1 c =
      .ok (if some c.toNat ∈ tokensV1 false (words (f.data.bytes.drop f.unicodeOffset)) ∧
          before (tokensV1 false (words (f.data.bytes.drop f.unicodeOffset))) c.toNat < f.glyphCount
        then some (before (tokensV1 false (words (f.data.bytes.drop f.unicodeOffset))) c.toNat)
        else none) := by
  have hlen := f.data.length_lt
  have htable : (f.data.bytes.drop f.unicodeOffset).length < 2 ^ 63 := by
    simp only [List.length_drop]
    omega
  rw [unicodeLookupV1]
  split
  · exact (lookupV1Loop_eq htable hcount (Nat.zero_le _) (by omega)).trans
      (by rw [List.drop_zero, Nat.zero_add])
  · rw [List.drop_of_length_le (by omega)]
    simp [words, tokensV1]

theorem unicodeLookupV2_eq (f : Font) (c : Char) : f.unicodeLookupV2 c =
    if before (tokens (f.data.bytes.drop f.unicodeOffset)) c.toNat < 2 ^ 32 then
      .ok (if some c.toNat ∈ tokens (f.data.bytes.drop f.unicodeOffset) then
        some (before (tokens (f.data.bytes.drop f.unicodeOffset)) c.toNat) else none)
    else .error .overflow := by
  have hlen := f.data.length_lt
  have htable : (f.data.bytes.drop f.unicodeOffset).length < 2 ^ 63 := by
    simp only [List.length_drop]
    omega
  rw [unicodeLookupV2]
  split
  · exact (lookupV2Loop_eq htable (Nat.zero_le _) (by omega) (by omega)).trans
      (by rw [List.drop_zero, Nat.zero_add])
  · rw [List.drop_of_length_le (by omega), tokens]
    simp [before]

theorem unicodeLookupV2_ok_iff (f : Font) (c : Char) : (∃ r, f.unicodeLookupV2 c = .ok r) ↔
    Countable (f.data.bytes.drop f.unicodeOffset) c.toNat := by
  rw [unicodeLookupV2_eq, Countable, before]
  split <;> simp_all

namespace Laid

theorem glyph_eq (h : Laid f) (hi : i < f.glyphCount) :
    f.glyph i = .ok (some (f.glyphRange i)) := by
  have hroom := h.room
  have hfits := h.fits
  have hlen := f.data.length_lt
  have hmul : (i + 1) * f.glyphBytes ≤ f.glyphCount * f.glyphBytes := Nat.mul_le_mul_right _ hi
  rw [Nat.succ_mul] at hmul
  rw [Font.glyph, if_neg (by omega), umul_of_lt (by omega), ok_bind, uadd_of_lt (by omega), ok_bind,
    uadd_of_lt (by omega), ok_bind, slice_of_le (by omega), ok_bind, Nat.add_sub_cancel_left]
  rfl

theorem length_glyphRange (h : Laid f) (hi : i < f.glyphCount) :
    (f.glyphRange i).length = f.glyphBytes := by
  have hroom := h.room
  have hfits := h.fits
  have hmul : (i + 1) * f.glyphBytes ≤ f.glyphCount * f.glyphBytes := Nat.mul_le_mul_right _ hi
  rw [Nat.succ_mul] at hmul
  simp only [glyphRange, List.length_take, List.length_drop]
  omega

theorem pixel_eq (h : Laid f) (hi : i < f.glyphCount) (hx : x < f.width) (hy : y < f.height) :
    f.glyphPixel i x y = Rust.index (f.glyphRange i) (y * f.bytesPerRow + x / 8) >>= fun byte =>
      .ok (some (decide (byte &&& (1 <<< UInt8.ofNat (7 - x % 8)) ≠ 0))) := by
  have hwidth := h.width_lt
  have hheight := h.height_lt
  have hrow := h.row_lt
  have hmul : y * f.bytesPerRow ≤ (2 ^ 32 - 1) * (2 ^ 32 - 1) :=
    Nat.mul_le_mul (by omega) (by omega)
  rw [glyphPixel, if_neg (by omega), umul_of_lt (by omega), ok_bind, uadd_of_lt (by omega), ok_bind,
    h.glyph_eq hi, ok_bind]
  rfl

theorem setData (h : Laid f) (hlen : data.bytes.length = f.data.bytes.length) :
    Laid { f with data := data } :=
  ⟨h.count_pos, h.count_lt, h.bytes_lt, h.row_lt, h.width_lt, h.height_lt, h.room, hlen ▸ h.fits⟩

theorem own_bytes (h : Laid f) (hi : i < f.glyphCount)
    (hlen : data.bytes.length = f.data.bytes.length)
    (hrange : { f with data := data }.glyphRange i = f.glyphRange i) (x y : Nat) :
    { f with data := data }.glyph i = f.glyph i ∧
      { f with data := data }.glyphPixel i x y = f.glyphPixel i x y := by
  have h' := h.setData hlen
  have hglyph : { f with data := data }.glyph i = f.glyph i := by
    rw [h.glyph_eq hi, h'.glyph_eq (by exact hi), hrange]
  refine ⟨hglyph, ?_⟩
  rw [glyphPixel, glyphPixel, hglyph]

/-- The last pixel reads the last byte, so it decides for all of them. -/
theorem pixel_ok_iff (h : Laid f) (hwidth : 0 < f.width) (hheight : 0 < f.height) :
    (∀ i < f.glyphCount, ∀ x < f.width, ∀ y < f.height, ∃ r, f.glyphPixel i x y = .ok (some r)) ↔
      (f.height - 1) * f.bytesPerRow + (f.width - 1) / 8 < f.glyphBytes := by
  constructor
  · intro hall
    obtain ⟨r, hr⟩ := hall 0 h.count_pos (f.width - 1) (by omega) (f.height - 1) (by omega)
    rw [h.pixel_eq h.count_pos (by omega) (by omega)] at hr
    obtain ⟨byte, hbyte, -⟩ := bind_eq_ok.mp hr
    obtain ⟨hlt, -⟩ := List.getElem?_eq_some_iff.mp (index_eq_ok.mp hbyte)
    rwa [h.length_glyphRange h.count_pos] at hlt
  · intro hlast i hi x hx y hy
    have hmul : y * f.bytesPerRow ≤ (f.height - 1) * f.bytesPerRow :=
      Nat.mul_le_mul_right _ (by omega)
    have hdiv : x / 8 ≤ (f.width - 1) / 8 := Nat.div_le_div_right (by omega)
    have hlt : y * f.bytesPerRow + x / 8 < (f.glyphRange i).length := by
      rw [h.length_glyphRange hi]
      omega
    exact ⟨_, by rw [h.pixel_eq hi hx hy, index_of_lt hlt, ok_bind]⟩

theorem safe_iff (h : Laid f) : Safe f ↔ (0 < f.width ∧ 0 < f.height) ∧
    (f.height - 1) * f.bytesPerRow + (f.width - 1) / 8 < f.glyphBytes ∧
      ∀ c, ∃ r, f.glyphIndexFor c = .ok r := by
  constructor
  · intro hs
    refine ⟨⟨hs.dims.1, hs.dims.2.1⟩, (h.pixel_ok_iff hs.dims.1 hs.dims.2.1).mp ?_, hs.lookup⟩
    intro i hi x hx y hy
    obtain ⟨r, hr, hsome⟩ := hs.pixel i (by have := h.count_lt; omega) x
      (by have := h.width_lt; omega) y (by have := h.height_lt; omega)
    obtain ⟨b, rfl⟩ := Option.isSome_iff_exists.mp (hsome.mpr ⟨hi, hx, hy⟩)
    exact ⟨b, hr⟩
  · rintro ⟨⟨hwidth, hheight⟩, hlast, hlookup⟩
    refine ⟨⟨hwidth, hheight, h.count_pos⟩, hlookup, ?_, ?_, ?_⟩
    · intro i _
      by_cases hi : i < f.glyphCount
      · exact ⟨_, h.glyph_eq hi, by simp [hi]⟩
      · exact ⟨none, by rw [Font.glyph, if_pos (by omega), pure_eq_ok], by simp [hi]⟩
    · intro i _ x _ y _
      by_cases hin : i < f.glyphCount ∧ x < f.width ∧ y < f.height
      · obtain ⟨r, hr⟩ := (h.pixel_ok_iff hwidth hheight).mpr hlast i hin.1 x hin.2.1 y hin.2.2
        exact ⟨some r, hr, by simp [hin]⟩
      · exact ⟨none, by rw [glyphPixel, if_pos (by omega), pure_eq_ok], by simp [hin]⟩
    · exact fun i hi data hlen hrange x y => h.own_bytes hi hlen hrange x y

end Laid

theorem glyphIndexFor_ok_iff (f : Font) (c : Char) :
    (∃ r, f.glyphIndexFor c = .ok r) ↔ (f.hasUnicode = true → ∃ r, f.unicodeLookup c = .ok r) := by
  unfold glyphIndexFor
  cases f.hasUnicode with
  | false => simp
  | true =>
    simp only [↓reduceIte, forall_const]
    constructor
    · rintro ⟨r, hr⟩
      obtain ⟨g, hg, -⟩ := bind_eq_ok.mp hr
      exact ⟨g, hg⟩
    · rintro ⟨g, hg⟩
      rw [hg, ok_bind]
      cases g with
      | none => exact ⟨_, rfl⟩
      | some g => exact ⟨_, rfl⟩

theorem parsePsf1_safe_iff (h : parsePsf1 data = .ok (.ok f)) :
    Safe f ↔ word data.bytes 3 1 ≠ 0 := by
  obtain ⟨-, hlaid, hversion, hwidth, hrow, hheight, hbytes⟩ := parsePsf1_cases h
  have hlookup : ∀ c, ∃ r, f.glyphIndexFor c = .ok r := by
    intro c
    apply (glyphIndexFor_ok_iff f c).mpr
    intro _
    rw [unicodeLookup, if_pos hversion]
    exact ⟨_, unicodeLookupV1_eq f hlaid.count_lt c⟩
  rw [hlaid.safe_iff, hwidth, hrow, hbytes, ← hheight]
  constructor
  · rintro ⟨⟨-, hpos⟩, -, -⟩
    omega
  · intro hpos
    exact ⟨by omega, by omega, hlookup⟩

theorem parsePsf2_safe_iff (h : parsePsf2 data = .ok (.ok f)) : Safe f ↔
    (word data.bytes 24 4 - 1) * (word data.bytes 20 4 / word data.bytes 24 4) +
        (word data.bytes 28 4 - 1) / 8 < word data.bytes 20 4 ∧
      (word data.bytes 12 4 % 2 = 1 → ∀ c : Char, Countable
        (data.bytes.drop (word data.bytes 8 4 + word data.bytes 16 4 * word data.bytes 20 4))
        c.toNat) := by
  obtain ⟨hdata, hlaid, hversion, hwidth, hwidth₀, hheight, hheight₀, hbytes, hrow, hflag,
    hoffset⟩ := parsePsf2_cases h
  have hlookup : (∀ c, ∃ r, f.glyphIndexFor c = .ok r) ↔ (word data.bytes 12 4 % 2 = 1 →
      ∀ c : Char, Countable (data.bytes.drop f.unicodeOffset) c.toNat) := by
    simp only [glyphIndexFor_ok_iff, unicodeLookup, if_neg (show f.version ≠ 1 by omega),
      unicodeLookupV2_ok_iff, hflag, hdata, decide_eq_true_eq]
    exact forall_comm
  rw [hlaid.safe_iff, hlookup, hwidth, hheight, hbytes, hrow, hoffset]
  exact and_iff_right (by omega)

/-- A font that parses is safe exactly when its header is well shaped: a PSF1 glyph has rows,
and the last pixel of a PSF2 glyph is among its bytes and its table can be counted. -/
theorem parse_safe_iff (h : parse data = .ok (.ok f)) : Safe f ↔ WellShaped data.bytes := by
  rcases parse_cases h with ⟨hmagic, h₁⟩ | ⟨hmagic, h₂⟩
  · rw [parsePsf1_safe_iff h₁]
    exact ⟨fun hpos => ⟨fun _ => hpos, fun hne => absurd hmagic hne, fun hne => absurd hmagic hne⟩,
      fun hshape => hshape.psf1 hmagic⟩
  · rw [parsePsf2_safe_iff h₂]
    exact ⟨fun ⟨hlast, htable⟩ => ⟨fun hm => absurd hm hmagic, fun _ => hlast, fun _ => htable⟩,
      fun hshape => ⟨hshape.rows hmagic, hshape.table hmagic⟩⟩

def onePixelRow (width : UInt8) : Slice :=
  ⟨[0x72, 0xb5, 0x4a, 0x86, 0, 0, 0, 0, 32, 0, 0, 0, 0, 0, 0, 0, 1, 0, 0, 0, 1, 0, 0, 0, 1, 0, 0, 0,
    width, 0, 0, 0, 0xFF], by simp⟩

theorem parse_safe_iff_eight : ∃ f, parse (onePixelRow 8) = .ok (.ok f) ∧
    (Safe f ↔ WellShaped (onePixelRow 8).bytes) := by
  have hparse : parse (onePixelRow 8) = .ok (.ok _) := rfl
  exact ⟨_, hparse, parse_safe_iff hparse⟩

/-- Sixteen pixels in one byte: the second half of the row is out of bounds.  And a PSF1 file
may declare glyphs of no rows. -/
theorem parse_unsafe : (∃ f, parse (onePixelRow 16) = .ok (.ok f) ∧
      f.glyphPixel 0 8 0 = .error .bounds ∧ ¬Safe f) ∧
    ∃ f, parse ⟨[0x36, 0x04, 0, 0], by simp⟩ = .ok (.ok f) ∧ f.height = 0 ∧ ¬Safe f := by
  refine ⟨⟨_, rfl, rfl, fun hs => ?_⟩, ⟨_, rfl, rfl, fun hs => ?_⟩⟩
  · obtain ⟨r, hr, -⟩ := hs.pixel 0 (by decide) 8 (by decide) 0 (by decide)
    exact nomatch hr
  · exact absurd hs.dims.2.1 (by decide)

end FerricK.Font
