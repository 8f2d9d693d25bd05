import FerricK.Font.Safety
import FerricK.Lib.Lists

namespace FerricK.Font

open Rust

/-- A picture by column and row.  What lies right of a glyph fills up its rows' last bytes. -/
abbrev Bitmap := Nat → Nat → Bool

def packByte (row : Nat → Bool) : UInt8 :=
  ⟨BitVec.ofBoolListBE [row 0, row 1, row 2, row 3, row 4, row 5, row 6, row 7]⟩

def packRow (width : Nat) (row : Nat → Bool) : List UInt8 :=
  (List.range ((width + 7) / 8)).map fun k => packByte fun j => row (8 * k + j)

def packGlyph (width height : Nat) (b : Bitmap) : List UInt8 :=
  (List.range height).flatMap fun y => packRow width fun x => b x y

def psf1File (mode charSize : UInt8) (bitmaps : List Bitmap) (trailing : List UInt8) : List UInt8 :=
  Bytes.toLE 2 psf1Magic ++ [mode, charSize] ++ bitmaps.flatMap (packGlyph 8 charSize.toNat) ++
    trailing

/-- The header is 32 bytes and whatever a later version of the format adds to them. -/
def psf2Words (version flags width height extra count : Nat) : List Nat :=
  [psf2Magic, version, psf2Header + extra, flags, count, height * ((width + 7) / 8), height, width]

def psf2File (version flags width height : Nat) (extra : List UInt8) (bitmaps : List Bitmap)
    (trailing : List UInt8) : List UInt8 :=
  (psf2Words version flags width height extra.length bitmaps.length).flatMap (Bytes.toLE 4) ++
    extra ++ bitmaps.flatMap (packGlyph width height) ++ trailing

inductive Stores : List UInt8 → Nat → Nat → List Bitmap → Prop
  | psf1 (mode charSize : UInt8) (bitmaps : List Bitmap) (trailing : List UInt8) :
    charSize ≠ 0 → bitmaps.length = (if mode &&& 1 ≠ 0 then 512 else 256) →
      Stores (psf1File mode charSize bitmaps trailing) 8 charSize.toNat bitmaps
  | psf2 (version flags width height : Nat) (extra : List UInt8) (bitmaps : List Bitmap)
      (trailing : List UInt8) :
    0 < width → 0 < height → bitmaps ≠ [] →
      (∀ v ∈ psf2Words version flags width height extra.length bitmaps.length, v < 2 ^ 32) →
        Stores (psf2File version flags width height extra bitmaps trailing) width height bitmaps

variable {f : Font} {data : Slice} {bitmaps : List Bitmap} {b : Bitmap} {trailing : List UInt8}
  {width height i x y : Nat}

theorem mask_eq : ∀ k < 8, (1 <<< UInt8.ofNat k : UInt8).toBitVec = BitVec.twoPow 8 k := by decide

theorem mask_ne_zero (byte : UInt8) {k : Nat} (hk : k < 8) :
    byte &&& (1 <<< UInt8.ofNat k) ≠ 0 ↔ byte.toBitVec.getLsbD k = true := by
  have hne : BitVec.twoPow 8 k ≠ 0#8 := by
    intro hzero
    have hbit := congrArg (·.getLsbD k) hzero
    simp [hk] at hbit
  rw [ne_eq, ← UInt8.toBitVec_inj, UInt8.toBitVec_and, mask_eq k hk, BitVec.and_twoPow]
  cases byte.toBitVec.getLsbD k <;> simp [hne]

theorem packByte_bit (row : Nat → Bool) (hx : x < 8) :
    decide (packByte row &&& (1 <<< UInt8.ofNat (7 - x)) ≠ 0) = row x := by
  have hbit : (packByte row).toBitVec.getLsbD (7 - x) = row x := by
    rw [packByte, BitVec.getLsbD_ofBoolListBE]
    match x, hx with
    | 0, _ | 1, _ | 2, _ | 3, _ | 4, _ | 5, _ | 6, _ | 7, _ => rfl
  rw [Bool.eq_iff_iff, decide_eq_true_eq, mask_ne_zero _ (by omega), hbit]

theorem length_packRow (width : Nat) (row : Nat → Bool) :
    (packRow width row).length = (width + 7) / 8 := by
  rw [packRow, List.length_map, List.length_range]

theorem length_packGlyph (width height : Nat) (b : Bitmap) :
    (packGlyph width height b).length = height * ((width + 7) / 8) := by
  rw [packGlyph, Lists.length_flatMap fun y _ => length_packRow width _, List.length_range]

theorem getElem?_packGlyph (b : Bitmap) (hx : x < width) (hy : y < height) :
    (packGlyph width height b)[y * ((width + 7) / 8) + x / 8]? =
      some (packByte fun j => b (8 * (x / 8) + j) y) := by
  have hcol : x / 8 < (width + 7) / 8 := by omega
  rw [packGlyph, Lists.getElem?_flatMap (fun y _ => length_packRow width _) hcol,
    List.getElem?_range hy, Option.bind_some, packRow, List.getElem?_map, List.getElem?_range hcol,
    Option.map_some]

theorem Laid.glyphPixel_stored (h : Laid f) (hrow : f.bytesPerRow = (f.width + 7) / 8)
    (hbytes : f.glyphBytes = f.height * f.bytesPerRow)
    (hdata : f.data.bytes.drop f.glyphDataOffset =
      bitmaps.flatMap (packGlyph f.width f.height) ++ trailing)
    (hcount : f.glyphCount = bitmaps.length) (hb : bitmaps[i]? = some b) (hx : x < f.width)
    (hy : y < f.height) : f.glyphPixel i x y = .ok (some (b x y)) := by
  obtain ⟨hi, -⟩ := List.getElem?_eq_some_iff.mp hb
  have hlen : ∀ b ∈ bitmaps, (packGlyph f.width f.height b).length = f.glyphBytes := by
    intro b _
    rw [length_packGlyph, hbytes, hrow]
  have hpos : y * f.bytesPerRow + x / 8 < f.glyphBytes := by
    have hmul : (y + 1) * f.bytesPerRow ≤ f.height * f.bytesPerRow := Nat.mul_le_mul_right _ hy
    rw [Nat.succ_mul] at hmul
    omega
  have hbyte : (f.glyphRange i)[y * f.bytesPerRow + x / 8]? =
      some (packByte fun j => b (8 * (x / 8) + j) y) := by
    rw [glyphRange, List.getElem?_take_of_lt hpos, ← List.drop_drop, List.getElem?_drop, hdata,
      List.getElem?_append_left, Lists.getElem?_flatMap hlen hpos, hb, Option.bind_some, hrow,
      getElem?_packGlyph b hx hy]
    rw [Lists.length_flatMap hlen]
    have hmul : (i + 1) * f.glyphBytes ≤ bitmaps.length * f.glyphBytes := Nat.mul_le_mul_right _ hi
    rw [Nat.succ_mul] at hmul
    omega
  rw [h.pixel_eq (by omega) hx hy, index_eq_ok.mpr hbyte, ok_bind,
    packByte_bit _ (Nat.mod_lt x (by decide)), Nat.div_add_mod]

section Psf1

variable {mode charSize : UInt8}

theorem parse_psf1File (hdata : data.bytes = psf1File mode charSize bitmaps trailing)
    (hcount : bitmaps.length = (psf1Font data mode charSize).glyphCount) :
    parse data = parsePsf1 data ∧ parsePsf1 data = .ok (.ok (psf1Font data mode charSize)) := by
  have hmagic : word data.bytes 0 2 = psf1Magic := by rw [hdata]; rfl
  have hmode : data.bytes[2]? = some mode := by rw [hdata]; rfl
  have hsize : data.bytes[3]? = some charSize := by rw [hdata]; rfl
  have hlen : (psf1Font data mode charSize).unicodeOffset ≤ data.bytes.length := by
    rw [hdata, psf1File, List.length_append, List.length_append,
      Lists.length_flatMap fun b _ => length_packGlyph 8 charSize.toNat b, hcount, Nat.mul_one]
    exact Nat.le_add_right _ _
  obtain ⟨hlt, -⟩ := List.getElem?_eq_some_iff.mp hsize
  exact ⟨parse_eq_parsePsf1 (by omega) hmagic, by rw [parsePsf1_eq hmode hsize, if_neg (by omega)]⟩

end Psf1

section Psf2

variable {version flags : Nat} {extra : List UInt8}

theorem word_header {ws : List Nat} {k v : Nat} (h : ∀ v ∈ ws, v < 2 ^ 32) (hk : ws[k]? = some v)
    (rest : List UInt8) : word (ws.flatMap (Bytes.toLE 4) ++ rest) (4 * k) 4 = v := by
  induction ws generalizing k with
  | nil => exact nomatch hk
  | cons a ws ih =>
    obtain ⟨ha, hws⟩ := List.forall_mem_cons.mp h
    rw [List.flatMap_cons, List.append_assoc]
    cases k with
    | zero =>
      cases hk
      rw [word, List.drop_zero, List.take_left' (Bytes.length_toLE 4 v), Bytes.ofLE_toLE (by omega)]
    | succ k =>
      rw [word, Nat.mul_succ, Nat.add_comm, ← List.drop_drop,
        List.drop_left' (Bytes.length_toLE 4 a)]
      exact ih hws hk

theorem length_header (version flags width height extra count : Nat) :
    ((psf2Words version flags width height extra count).flatMap (Bytes.toLE 4)).length =
      psf2Header := by
  rw [Lists.length_flatMap fun v _ => Bytes.length_toLE 4 v]
  rfl

theorem length_psf2File (version flags width height : Nat) (extra : List UInt8)
    (bitmaps : List Bitmap) (trailing : List UInt8) :
    (psf2File version flags width height extra bitmaps trailing).length =
      psf2Header + extra.length + bitmaps.length * (height * ((width + 7) / 8)) +
        trailing.length := by
  rw [psf2File, List.length_append, List.length_append, List.length_append, length_header,
    Lists.length_flatMap fun b _ => length_packGlyph width height b]

theorem drop_psf2File (version flags width height : Nat) (extra : List UInt8)
    (bitmaps : List Bitmap) (trailing : List UInt8) :
    (psf2File version flags width height extra bitmaps trailing).drop (psf2Header + extra.length) =
      bitmaps.flatMap (packGlyph width height) ++ trailing := by
  rw [psf2File, List.append_assoc, List.drop_left']
  rw [List.length_append, length_header]

theorem parse_psf2File (hdata : data.bytes = psf2File version flags width height extra bitmaps
      trailing) (hwidth : 0 < width) (hheight : 0 < height) (hne : bitmaps ≠ [])
    (hwords : ∀ v ∈ psf2Words version flags width height extra.length bitmaps.length, v < 2 ^ 32) :
    (parse data = parsePsf2 data ∧ parsePsf2 data = .ok (.ok (psf2Font data))) ∧
      (psf2Font data).width = width ∧ (psf2Font data).height = height ∧
      (psf2Font data).glyphCount = bitmaps.length ∧
      (psf2Font data).glyphBytes = height * ((width + 7) / 8) ∧
      (psf2Font data).glyphDataOffset = psf2Header + extra.length := by
  have hfield : ∀ k v, (psf2Words version flags width height extra.length bitmaps.length)[k]? =
      some v → word data.bytes (4 * k) 4 = v := by
    intro k v hk
    rw [hdata, psf2File, List.append_assoc, List.append_assoc]
    exact word_header hwords hk _
  have hmagic := hfield 0 _ rfl
  have hheadersize := hfield 2 _ rfl
  have hnumglyph := hfield 4 _ rfl
  have hbytes := hfield 5 _ rfl
  have hrows := hfield 6 _ rfl
  have hcols := hfield 7 _ rfl
  have hlow : word data.bytes 0 2 = Bytes.ofLE (Bytes.toLE 2 psf2Magic) := by rw [hdata]; rfl
  have hmark : word data.bytes 0 2 ≠ psf1Magic := by
    rw [hlow]
    decide
  have hlen := congrArg List.length hdata
  rw [length_psf2File] at hlen
  have hcount : 0 < bitmaps.length := List.length_pos_iff.mpr hne
  have hperglyph : 0 < height * ((width + 7) / 8) := Nat.mul_pos hheight (by omega)
  have hfits : ¬(psf2Font data).unicodeOffset > data.bytes.length := by
    simp only [psf2Font, hheadersize, hnumglyph, hbytes, hlen]
    omega
  have hheader : psf2Header ≤ data.bytes.length := by omega
  have hmin : 4 ≤ data.bytes.length := by
    simp only [psf2Header] at hheader
    omega
  refine ⟨⟨parse_eq_parsePsf2 hmin hmark hmagic, ?_⟩, hcols, hrows, hnumglyph, hbytes, hheadersize⟩
  rw [parsePsf2_eq hheader, hheadersize, hnumglyph, hbytes, hrows, hcols, if_neg (by omega),
    if_neg hfits]

end Psf2

theorem parse_stores (h : Stores data.bytes width height bitmaps) :
    ∃ f, parse data = .ok (.ok f) ∧ f.width = width ∧ f.height = height ∧
      f.glyphCount = bitmaps.length ∧ ∀ i b, bitmaps[i]? = some b → ∀ x < width, ∀ y < height,
        f.glyphPixel i x y = .ok (some (b x y)) := by
  generalize hbytes : data.bytes = bytes at h
  cases h with
  | psf1 mode charSize _ trailing hsize hcount =>
    obtain ⟨hparse₁, hparse⟩ := parse_psf1File hbytes hcount
    obtain ⟨-, hlaid, -⟩ := parsePsf1_cases hparse
    have hdrop : data.bytes.drop psf1Header =
        bitmaps.flatMap (packGlyph 8 charSize.toNat) ++ trailing := by
      rw [hbytes, psf1File, List.append_assoc]
      rfl
    refine ⟨_, hparse₁.trans hparse, rfl, rfl, hcount.symm, fun i b hb x hx y hy => ?_⟩
    have hrow : 1 = (8 + 7) / 8 := by decide
    exact hlaid.glyphPixel_stored hrow (Nat.mul_one _).symm hdrop hcount.symm hb hx hy
  | psf2 version flags _ _ extra _ trailing hwidth hheight hne hwords =>
    obtain ⟨⟨hparse₂, hparse⟩, hcols, hrows, hcount, hperglyph, hoffset⟩ :=
      parse_psf2File hbytes hwidth hheight hne hwords
    have hlaid := (parsePsf2_cases hparse).2.1
    refine ⟨_, hparse₂.trans hparse, hcols, hrows, hcount, fun i b hb x hx y hy => ?_⟩
    have hrow : (psf2Font data).bytesPerRow = ((psf2Font data).width + 7) / 8 := by
      have hdiv : (psf2Font data).bytesPerRow =
          (psf2Font data).glyphBytes / (psf2Font data).height := rfl
      rw [hdiv, hperglyph, hrows, hcols, Nat.mul_div_cancel_left _ hheight]
    have hdrop : (psf2Font data).data.bytes.drop (psf2Font data).glyphDataOffset =
        bitmaps.flatMap (packGlyph (psf2Font data).width (psf2Font data).height) ++ trailing := by
      rw [hoffset, hcols, hrows, show (psf2Font data).data = data by rfl, hbytes, drop_psf2File]
    exact hlaid.glyphPixel_stored hrow (by rw [hrow, hperglyph, hrows, hcols]) hdrop hcount hb
      (by omega) (by omega)

def slantedFile : Slice where
  bytes := psf2File 0 1 9 2 [0, 0, 0, 0] [fun x y => decide (x = 8 * y)] [0xFF]
  length_lt := by decide

theorem parse_slantedFile : ∃ f, parse slantedFile = .ok (.ok f) ∧
    f.glyphPixel 0 8 1 = .ok (some true) ∧ f.glyphPixel 0 7 1 = .ok (some false) := by
  have hstores : Stores slantedFile.bytes 9 2 [fun x y => decide (x = 8 * y)] :=
    .psf2 _ _ _ _ _ _ _ (by decide) (by decide) (by decide) (by decide)
  obtain ⟨f, hf, -, -, -, hpixel⟩ := parse_stores hstores
  exact ⟨f, hf, hpixel 0 _ rfl 8 (by decide) 1 (by decide),
    hpixel 0 _ rfl 7 (by decide) 1 (by decide)⟩

end FerricK.Font
