import FerricK.Console.EditLine
import FerricK.Framebuffer.Pixels
import FerricK.Grid.Cursor

namespace FerricK.Console

open Rust TextGrid Raster

def cellWord (c : Console) (font : Font) (fb : FrameBuffer) (row col gx gy : Nat) : Rust Nat := do
  let cell ← Rust.index c.cells (row * c.cols + col)
  let glyph := (← font.glyphIndexFor cell.glyph).getD 0
  let set := (← font.glyphPixel glyph gx gy).getD false
  fb.encode (if set then cell.fg else cell.bg)

def InSync (c : Console) (fb : FrameBuffer) : Prop :=
  ∀ font, parseFont = .ok font → ∀ row < c.rows, ∀ col < c.cols,
    ∀ gy < font.height, ∀ gx < font.width, ∃ word, c.cellWord font fb row col gx gy = .ok word ∧
      fb.readRawPixel (col * font.width + gx) (row * font.height + gy) = .ok (some word)

def OnScreen (c : Console) (fb : FrameBuffer) : Prop :=
  ∀ font, parseFont = .ok font →
    c.cols * font.width ≤ fb.width ∧ c.rows * font.height ≤ fb.height

def SameOutside (c : Console) (fb fb' : FrameBuffer) : Prop :=
  ∀ font, parseFont = .ok font → ∀ x y,
    ¬(x < c.cols * font.width ∧ y < c.rows * font.height) →
      fb'.readRawPixel x y = fb.readRawPixel x y

structure Backed (c : Console) (font : Font) (fb : FrameBuffer) : Prop where
  sized : Sized c
  parse : parseFont = .ok font
  small : font.Small
  ready : fb.Ready
  packed : fb.Packed

structure Framed (c : Console) (font : Font) (fb : FrameBuffer) : Prop where
  sized : Sized c
  parse : parseFont = .ok font
  small : font.Small
  ready : fb.Ready
  packed : fb.Packed
  width : c.cols * 8 ≤ fb.width
  height : c.rows * 16 ≤ fb.height

def cellArea (row col : Nat) : Set (Nat × Nat) := {p | p.1 / 8 = col ∧ p.2 / 16 = row}

def picture (c : Console) (font : Font) (fb : FrameBuffer) (p : Nat × Nat) : Nat :=
  ((c.cellWord font fb (p.2 / 16) (p.1 / 8) (p.1 % 8) (p.2 % 16)).toOption).getD 0

variable {c : Console} {font : Font} {fb fb' : FrameBuffer} {row col gx gy : Nat} {p : Nat × Nat}
  {cell : Cell} {glyph : Option Nat} {set : Option Bool} {fgWord bgWord : Nat}

theorem cellWord_eq (hcell : c.cells[row * c.cols + col]? = some cell)
    (hglyph : font.glyphIndexFor cell.glyph = .ok glyph)
    (hset : font.glyphPixel (glyph.getD 0) gx gy = .ok set)
    (hfg : fb.encode cell.fg = .ok fgWord) (hbg : fb.encode cell.bg = .ok bgWord) :
    c.cellWord font fb row col gx gy = .ok (if set.getD false then fgWord else bgWord) := by
  rw [cellWord, index_eq_ok.mpr hcell, ok_bind, hglyph, ok_bind]
  simp only
  rw [hset, ok_bind]
  split
  · exact hfg
  · exact hbg

theorem picture_eq {word : Nat} (hgx : gx < 8) (hgy : gy < 16)
    (h : c.cellWord font fb row col gx gy = .ok word) :
    c.picture font fb (col * 8 + gx, row * 16 + gy) = word := by
  rw [picture, index_div hgx, index_div hgy, index_mod hgx, index_mod hgy, h]
  rfl

theorem Framed.backed (h : Framed c font fb) : Backed c font fb :=
  ⟨h.sized, h.parse, h.small, h.ready, h.packed⟩

theorem Backed.redrawn (h : Backed c font fb) (hr : fb.Redrawn fb') : Backed c font fb' :=
  ⟨h.sized, h.parse, h.small, hr.ready h.ready, hr.packed h.packed⟩

theorem Framed.redrawn (h : Framed c font fb) (hr : fb.Redrawn fb') : Framed c font fb' := by
  have hready := hr.ready h.ready
  have hpacked := hr.packed h.packed
  obtain ⟨surface, rfl⟩ := hr
  exact ⟨h.sized, h.parse, h.small, hready, hpacked, h.width, h.height⟩

theorem Framed.mem_area (h : Framed c font fb) (hrow : row < c.rows) (hcol : col < c.cols)
    (hgx : gx < 8) (hgy : gy < 16) : (col * 8 + gx, row * 16 + gy) ∈ fb.area := by
  have hwidth := h.width
  have hheight := h.height
  refine ⟨?_, ?_⟩ <;> simp only <;> omega

theorem picture_redrawn (hr : fb.Redrawn fb') : c.picture font fb' = c.picture font fb := by
  obtain ⟨surface, rfl⟩ := hr
  rfl

theorem Backed.blitPixel_painted {glyph : Nat} (h : Backed c font fb) (hrow : row < c.rows)
    (hcol : col < c.cols) (hgx : gx < 8) (hgy : gy < 16)
    (hset : font.glyphPixel glyph gx gy = .ok set)
    (hword : c.picture font fb (col * 8 + gx, row * 16 + gy) =
      if set.getD false then fgWord else bgWord)
    (hfg : fgWord < 256 ^ fb.bytesPerPixel) (hbg : bgWord < 256 ^ fb.bytesPerPixel) :
    ∃ fb', blitPixel font glyph fgWord bgWord (col * 8) (row * 16) gy gx fb = .ok fb' ∧
      fb.Redrawn fb' ∧ Painted fb.area {(col * 8 + gx, row * 16 + gy)} (c.picture font fb)
        fb.pixel fb'.pixel := by
  have hcells : cellCount = 32768 := rfl
  have hdims := h.sized.dims
  rw [blitPixel, hset, ok_bind]
  simp only
  rw [uadd_of_lt (by omega), ok_bind, uadd_of_lt (by omega), ok_bind, ← hword]
  by_cases harea : (col * 8 + gx, row * 16 + gy) ∈ fb.area
  · have hfits : c.picture font fb (col * 8 + gx, row * 16 + gy) < 256 ^ fb.bytesPerPixel := by
      rw [hword]
      split
      · exact hfg
      · exact hbg
    obtain ⟨fb', hwrite, hredrawn, hpainted⟩ :=
      h.ready.valid.writeWord_painted h.packed harea hfits
    exact ⟨fb', by rw [hwrite, ok_bind, pure_eq_ok], hredrawn, hpainted⟩
  · have hout := not_not.mp (FrameBuffer.mem_area.not.mp harea)
    refine ⟨fb, by rw [FrameBuffer.writeWord, if_pos hout]; rfl, FrameBuffer.Redrawn.refl fb, ?_⟩
    refine ⟨?_, fun _ _ _ => rfl⟩
    rintro p hp rfl
    exact absurd hp harea

theorem mem_cellArea_iff (p : Nat × Nat) :
    (∃ gy < 16, ∃ gx < 8, p ∈ ({(col * 8 + gx, row * 16 + gy)} : Set (Nat × Nat))) ↔
      p ∈ cellArea row col := by
  obtain ⟨x, y⟩ := p
  simp only [cellArea, Set.mem_ofPred_eq, Set.mem_singleton_iff, Prod.mk.injEq]
  constructor
  · rintro ⟨gy, hgy, gx, hgx, rfl, rfl⟩
    omega
  · rintro ⟨rfl, rfl⟩
    exact ⟨y % 16, Nat.mod_lt _ (by decide), x % 8, Nat.mod_lt _ (by decide), by omega, by omega⟩

theorem Backed.blitCell_painted (h : Backed c font fb) (hrow : row < c.rows) (hcol : col < c.cols) :
    ∃ fb', c.blitCell font row col fb = .ok fb' ∧ fb.Redrawn fb' ∧
      Painted fb.area (cellArea row col) (c.picture font fb) fb.pixel fb'.pixel := by
  obtain ⟨cell, hcell⟩ := h.sized.getElem?_cell hrow hcol
  obtain ⟨glyph, hglyph⟩ := h.small.safe.lookup cell.glyph
  obtain ⟨fgWord, hfg⟩ := h.ready.encode_ok cell.fg
  obtain ⟨bgWord, hbg⟩ := h.ready.encode_ok cell.bg
  have hfgLt := h.packed.encode_lt h.ready.valid hfg
  have hbgLt := h.packed.encode_lt h.ready.valid hbg
  rw [h.sized.blitCell_eq h.small hrow hcol hcell hglyph hfg hbg]
  have hpixel : ∀ gy < 16, ∀ gx < 8, ∀ fb₁, fb.Redrawn fb₁ →
      ∃ fb₂, blitPixel font (glyph.getD 0) fgWord bgWord (col * 8) (row * 16) gy gx fb₁ =
          .ok fb₂ ∧ fb.Redrawn fb₂ ∧
        Painted fb.area {(col * 8 + gx, row * 16 + gy)} (c.picture font fb) fb₁.pixel
          fb₂.pixel := by
    rintro gy hgy gx hgx _ ⟨surface, rfl⟩
    obtain ⟨set, hset⟩ := h.small.glyphPixel_ok (glyph.getD 0) (x := gx) (y := gy) (by omega)
      (by omega)
    have hword := picture_eq hgx hgy (cellWord_eq hcell hglyph hset hfg hbg)
    obtain ⟨fb₂, hblit, hredrawn, hpainted⟩ := (h.redrawn ⟨surface, rfl⟩).blitPixel_painted
      hrow hcol hgx hgy hset hword hfgLt hbgLt
    exact ⟨fb₂, hblit, FrameBuffer.Redrawn.trans ⟨surface, rfl⟩ hredrawn, hpainted⟩
  obtain ⟨fb', hloop, hredrawn, hpainted⟩ := forRange_painted FrameBuffer.pixel
    fb.Redrawn (D := fb.area) (w := c.picture font fb) (n := 16)
    (R := fun gy => {p | ∃ gx < 8, p ∈ ({(col * 8 + gx, row * 16 + gy)} : Set (Nat × Nat))})
    (FrameBuffer.Redrawn.refl fb) fun gy hgy fb₁ hr =>
      forRange_painted FrameBuffer.pixel fb.Redrawn hr fun gx hgx fb₁ hr =>
        hpixel gy hgy gx hgx fb₁ hr
  exact ⟨fb', hloop, hredrawn, hpainted.congr fun p _ => mem_cellArea_iff p⟩

def gridArea (c : Console) : Set (Nat × Nat) := {p | p.1 < c.cols * 8 ∧ p.2 < c.rows * 16}

theorem Backed.blitCell_redrawn {fb₁ : FrameBuffer} (h : Backed c font fb) (hr : fb.Redrawn fb₁)
    (hrow : row < c.rows) (hcol : col < c.cols) :
    ∃ fb₂, c.blitCell font row col fb₁ = .ok fb₂ ∧ fb.Redrawn fb₂ ∧
      Painted fb.area (cellArea row col) (c.picture font fb) fb₁.pixel fb₂.pixel := by
  obtain ⟨fb₂, hblit, hr₂, hpainted⟩ := (h.redrawn hr).blitCell_painted hrow hcol
  obtain ⟨surface, rfl⟩ := hr
  exact ⟨fb₂, hblit, FrameBuffer.Redrawn.trans ⟨surface, rfl⟩ hr₂, hpainted⟩

theorem Framed.render_painted (h : Framed c font fb) :
    ∃ fb', c.render fb = .ok fb' ∧ fb.Redrawn fb' ∧
      Painted fb.area c.gridArea (c.picture font fb) fb.pixel fb'.pixel := by
  have hcols := h.sized.cols_pos
  have hrows := h.sized.rows_pos
  rw [render, if_neg (by omega), h.parse, ok_bind]
  obtain ⟨fb', hloop, hredrawn, hpainted⟩ := forRange_painted FrameBuffer.pixel
    fb.Redrawn (D := fb.area) (w := c.picture font fb) (n := c.rows)
    (R := fun row => {p | ∃ col < c.cols, p ∈ cellArea row col}) (FrameBuffer.Redrawn.refl fb)
    fun row hrow fb₁ hr => forRange_painted FrameBuffer.pixel fb.Redrawn hr fun col hcol fb₁ hr =>
      h.backed.blitCell_redrawn hr hrow hcol
  refine ⟨fb', hloop, hredrawn, hpainted.congr ?_⟩
  rintro ⟨x, y⟩ -
  simp only [cellArea, gridArea, Set.mem_ofPred_eq]
  constructor
  · rintro ⟨row, hrow, col, hcol, rfl, rfl⟩
    omega
  · rintro ⟨hx, hy⟩
    exact ⟨y / 16, by omega, x / 8, by omega, rfl, rfl⟩

def rangeArea (c : Console) (first last : Nat) : Set (Nat × Nat) :=
  {p | p ∈ c.gridArea ∧ first ≤ p.2 / 16 * c.cols + p.1 / 8 ∧ p.2 / 16 * c.cols + p.1 / 8 ≤ last}

theorem clampRange_eq {total first : Nat} (hfirst : first < total) (last : Nat) :
    clampRange total first last = (first, min last (total - 1)) := by
  unfold clampRange
  split
  · rw [Nat.min_eq_left (by omega)]
  · rw [Nat.min_eq_left (by omega)]

theorem mem_rangeArea_iff {first last : Nat} (hcols : 0 < c.cols) (hfirst : first < c.rows * c.cols)
    (p : Nat × Nat) :
    (∃ i ∈ List.range' first (min last (c.rows * c.cols - 1) + 1 - first),
      p ∈ cellArea (i / c.cols) (i % c.cols)) ↔ p ∈ c.rangeArea first last := by
  obtain ⟨x, y⟩ := p
  have htotal := Nat.mul_comm c.rows c.cols
  simp only [cellArea, rangeArea, gridArea, Set.mem_ofPred_eq, List.mem_range'_1]
  constructor
  · rintro ⟨i, hi, hx, hy⟩
    have hplace := Nat.div_add_mod' i c.cols
    have hcol : i % c.cols < c.cols := Nat.mod_lt i hcols
    have hrow : i / c.cols < c.rows := Nat.div_lt_of_lt_mul (by omega)
    rw [hx, hy]
    omega
  · rintro ⟨⟨hx, hy⟩, hge, hle⟩
    have hcol : x / 8 < c.cols := by omega
    have hrow : y / 16 < c.rows := by omega
    have hlt := index_lt hrow hcol
    exact ⟨y / 16 * c.cols + x / 8, by omega, (index_mod hcol).symm, (index_div hcol).symm⟩

theorem Framed.renderRange_painted {first last : Nat} (h : Framed c font fb)
    (hfirst : first < c.cols * c.rows) (hle : first ≤ last) :
    ∃ fb', c.renderRange first last fb = .ok fb' ∧ fb.Redrawn fb' ∧
      Painted fb.area (c.rangeArea first last) (c.picture font fb) fb.pixel fb'.pixel := by
  have hcols := h.sized.cols_pos
  have hrows := h.sized.rows_pos
  have harea := h.sized.area_le
  have hcells : cellCount = 32768 := rfl
  rw [Nat.mul_comm] at hfirst harea
  rw [renderRange, if_neg (by omega), umul_of_lt (by omega), ok_bind, clampRange_eq hfirst]
  simp only
  rw [if_neg (by omega), h.parse, ok_bind]
  obtain ⟨fb', hloop, hredrawn, hpainted⟩ := forEach_painted FrameBuffer.pixel fb.Redrawn
    (D := fb.area) (w := c.picture font fb)
    (l := List.range' first (min last (c.rows * c.cols - 1) + 1 - first))
    (R := fun i => cellArea (i / c.cols) (i % c.cols)) (FrameBuffer.Redrawn.refl fb)
    fun i hi fb₁ hr => by
      obtain ⟨-, hi⟩ := List.mem_range'_1.mp hi
      have hlt : i < c.cols * c.rows := by
        rw [Nat.mul_comm]
        omega
      exact h.backed.blitCell_redrawn hr (Nat.div_lt_of_lt_mul hlt) (Nat.mod_lt i hcols)
  exact ⟨fb', hloop, hredrawn, hpainted.congr fun p _ => mem_rangeArea_iff hcols hfirst p⟩

theorem Backed.cellWord_ok (h : Backed c font fb) (hrow : row < c.rows) (hcol : col < c.cols)
    (hgx : gx < 8) (hgy : gy < 16) : ∃ word, c.cellWord font fb row col gx gy = .ok word := by
  obtain ⟨cell, hcell⟩ := h.sized.getElem?_cell hrow hcol
  obtain ⟨glyph, hglyph⟩ := h.small.safe.lookup cell.glyph
  obtain ⟨set, hset⟩ := h.small.glyphPixel_ok (glyph.getD 0) (x := gx) (y := gy) (by omega)
    (by omega)
  obtain ⟨fgWord, hfg⟩ := h.ready.encode_ok cell.fg
  obtain ⟨bgWord, hbg⟩ := h.ready.encode_ok cell.bg
  exact ⟨_, cellWord_eq hcell hglyph hset hfg hbg⟩

theorem Framed.inSync_iff (h : Framed c font fb) :
    InSync c fb ↔ ∀ p ∈ fb.area, p ∈ c.gridArea → fb.pixel p = c.picture font fb p := by
  constructor
  · rintro hsync ⟨x, y⟩ harea ⟨hx, hy⟩
    simp only at hx hy
    obtain ⟨word, hword, hread⟩ := hsync font h.parse (y / 16) (by omega) (x / 8) (by omega)
      (y % 16) (by rw [h.small.height]; omega) (x % 8) (by rw [h.small.width]; omega)
    rw [h.small.width, h.small.height, Nat.div_add_mod', Nat.div_add_mod',
      h.ready.valid.readRawPixel_eq h.packed harea] at hread
    have hpixel : fb.pixel (x, y) = word := by simpa using hread
    rw [hpixel, picture, hword]
    rfl
  · intro hsync font' hparse row hrow col hcol gy hgy gx hgx
    cases h.parse.symm.trans hparse
    rw [h.small.height] at hgy
    rw [h.small.width] at hgx
    have harea := h.mem_area hrow hcol hgx hgy
    obtain ⟨word, hword⟩ := h.backed.cellWord_ok hrow hcol hgx hgy
    refine ⟨word, hword, ?_⟩
    have hgrid : (col * 8 + gx, row * 16 + gy) ∈ c.gridArea := by
      refine ⟨?_, ?_⟩ <;> simp only <;> omega
    rw [h.small.width, h.small.height, h.ready.valid.readRawPixel_eq h.packed harea,
      hsync _ harea hgrid, picture_eq hgx hgy hword]

theorem Framed.sameOutside (h : Framed c font fb) (hr : fb.Redrawn fb')
    (hpainted : Painted fb.area c.gridArea (c.picture font fb) fb.pixel fb'.pixel) :
    SameOutside c fb fb' := by
  intro font' hparse x y hout
  cases h.parse.symm.trans hparse
  rw [h.small.width, h.small.height] at hout
  have h' := h.redrawn hr
  by_cases harea : (x, y) ∈ fb.area
  · have hread := h.ready.valid.readRawPixel_eq h.packed harea
    have hread' := h'.ready.valid.readRawPixel_eq h'.packed (hr.area ▸ harea)
    rw [hpainted.outside _ harea hout] at hread'
    exact hread'.trans hread.symm
  · have hnone : x ≥ fb.width ∨ y ≥ fb.height := by
      by_contra hin
      exact harea ⟨by simp only; omega, by simp only; omega⟩
    obtain ⟨surface, rfl⟩ := hr
    rw [FrameBuffer.readRawPixel, FrameBuffer.readRawPixel, if_pos hnone, if_pos hnone]

theorem Framed.render_inSync (h : Framed c font fb) :
    ∃ fb', c.render fb = .ok fb' ∧ fb.Redrawn fb' ∧ InSync c fb' ∧ SameOutside c fb fb' := by
  obtain ⟨fb', hrender, hr, hpainted⟩ := h.render_painted
  refine ⟨fb', hrender, hr, ?_, h.sameOutside hr hpainted⟩
  rw [(h.redrawn hr).inSync_iff, hr.area, picture_redrawn hr]
  exact hpainted.inside

theorem picture_congr {c' : Console} (hcols : c'.cols = c.cols)
    (hcell : c'.cells[p.2 / 16 * c.cols + p.1 / 8]? = c.cells[p.2 / 16 * c.cols + p.1 / 8]?) :
    c'.picture font fb p = c.picture font fb p := by
  rw [picture, picture, cellWord, cellWord, Rust.index, Rust.index, hcols, hcell]

theorem Framed.renderRange_inSync {c' : Console} {first last : Nat} (h : Framed c font fb)
    (h' : Framed c' font fb) (hcols : c'.cols = c.cols) (hrows : c'.rows = c.rows)
    (hfirst : first < c.cols * c.rows) (hle : first ≤ last)
    (hsame : ∀ i, i < first ∨ last < i → c'.cells[i]? = c.cells[i]?) (hsync : InSync c fb) :
    ∃ fb', c'.renderRange first last fb = .ok fb' ∧ InSync c' fb' := by
  have hfirst' : first < c'.cols * c'.rows := by rwa [hcols, hrows]
  have hgrid : c'.gridArea = c.gridArea := by rw [gridArea, gridArea, hcols, hrows]
  obtain ⟨fb', hrender, hr, hpainted⟩ := h'.renderRange_painted hfirst' hle
  refine ⟨fb', hrender, ?_⟩
  rw [(h'.redrawn hr).inSync_iff, hr.area, picture_redrawn hr]
  apply hpainted.complete
  intro p harea hp hout
  have hplace : p.2 / 16 * c.cols + p.1 / 8 < first ∨ last < p.2 / 16 * c.cols + p.1 / 8 := by
    by_contra hin
    refine hout ⟨hp, ?_⟩
    rw [hcols]
    omega
  rw [picture_congr hcols (hsame _ hplace)]
  exact h.inSync_iff.mp hsync p harea (hgrid ▸ hp)

theorem setCell_frame {g : TextGrid} (h : g.Valid) (i : Nat) (value : Cell) :
    ∃ g', g.setCell (i / g.cols) (i % g.cols) value = .ok g' ∧ Typed g g' ∧ g'.cursor = g.cursor ∧
      ∀ k, k ≠ i → g'.cells[k]? = g.cells[k]? := by
  unfold TextGrid.setCell
  split
  · next hin =>
    refine ⟨_, h.storeAt_eq hin.1 hin.2 value, ⟨h.storeAt _ _ value, rfl, List.length_set⟩, rfl,
      fun k hk => ?_⟩
    rw [Nat.div_add_mod', List.getElem?_set_ne (Ne.symm hk)]
  · exact ⟨g, rfl, Typed.refl h, rfl, fun _ _ => rfl⟩

theorem blankEdited_frame {origin left off : Nat} {g : TextGrid} (h : g.Valid) (total : Nat)
    (blank : Cell) (hlt : origin + off + left < 2 ^ 64) :
    ∃ g', blankEdited origin total g.cols blank left off g = .ok g' ∧ Typed g g' ∧
      g'.cursor = g.cursor ∧
      ∀ i, i < origin + off ∨ origin + off + left ≤ i → g'.cells[i]? = g.cells[i]? := by
  induction left generalizing off g with
  | zero => exact ⟨g, rfl, Typed.refl h, rfl, fun _ _ => rfl⟩
  | succ left ih =>
    rw [blankEdited, uadd_of_lt (by omega), ok_bind]
    split
    · exact ⟨g, rfl, Typed.refl h, rfl, fun _ _ => rfl⟩
    obtain ⟨g₁, hset, htyped, hcursor, hsame⟩ := setCell_frame h (origin + off) blank
    have hroom : origin + (off + 1) + left < 2 ^ 64 := by omega
    obtain ⟨g₂, hrest, htyped', hcursor', hsame'⟩ := ih htyped.valid hroom
    rw [htyped.cols] at hrest
    refine ⟨g₂, by rw [hset, ok_bind, hrest], htyped.trans htyped', hcursor'.trans hcursor,
      fun i hi => ?_⟩
    rw [hsame' i (by omega), hsame i (by omega)]

theorem Sized.setEditLine_frame {chars : List Char} (h : Sized c) (hrow : c.editRow < c.rows)
    (hcol : c.editCol < c.cols) (hedited : c.editedCells < 2 ^ 32)
    (hchars : ¬(chars = [] ∧ c.editedCells = 0)) :
    ∃ g, Typed c.freshGrid g ∧ g.cursor = ⟨c.editRow, c.editCol, 0⟩ ∧
      (∀ i, i < c.editRow * c.cols + c.editCol ∨
        c.editRow * c.cols + c.editCol + c.editedCells ≤ i → g.cells[i]? = c.cells[i]?) ∧
      ∀ fb, c.setEditLine chars fb = putChars chars c.fg c.bg g >>= fun g =>
        c.finishEdit (c.editRow * c.cols + c.editCol) g fb := by
  have hcells : cellCount = 32768 := rfl
  have harea := h.area_le
  have horigin := TextGrid.index_lt hrow hcol
  have hroom : c.editRow * c.cols + c.editCol + 0 + c.editedCells < 2 ^ 64 := by omega
  obtain ⟨g, hblank, htyped, hcursor, hsame⟩ := blankEdited_frame h.valid_freshGrid
    (c.rows * c.cols) (Cell.blank c.fg c.bg) hroom
  have hset : Typed g (g.setCursor c.editRow c.editCol) :=
    ⟨htyped.valid.setCursor .., rfl, rfl⟩
  refine ⟨g.setCursor c.editRow c.editCol, htyped.trans hset, ?_, hsame, fun fb => ?_⟩
  · have hgrows : g.rows = c.rows := htyped.rows
    have hgcols : g.cols = c.cols := htyped.cols
    have hscroll : g.scrollCount = 0 := congrArg Cursor.scrolls hcursor
    simp only [cursor, TextGrid.setCursor, hscroll, Cursor.mk.injEq, and_true]
    omega
  · rw [show c.freshGrid.cols = c.cols from rfl] at hblank
    rw [h.setEditLine_eq horigin.le, if_neg hchars, hblank, ok_bind]

theorem Framed.edited {g : TextGrid} (h : Framed c font fb) (hg : Typed c.freshGrid g)
    (origin : Nat) : Framed (c.edited origin g) font fb :=
  ⟨⟨h.sized.cols_pos, h.sized.rows_pos, h.sized.area_le, hg.length.trans h.sized.length⟩, h.parse,
    h.small, h.ready, h.packed, h.width, h.height⟩

theorem place_le {g : TextGrid} (hg : Typed c.freshGrid g) :
    g.row * c.cols + g.col ≤ c.cols * c.rows := by
  have hrow : g.row < c.rows := hg.valid.row_lt.trans_eq hg.rows
  have hcol : g.col ≤ c.cols := hg.valid.col_le.trans_eq hg.cols
  exact index_le hrow hcol

theorem Framed.setEditLine_inSync {chars : List Char} {d : Display} (h : Framed c font fb)
    (hrow : c.editRow < c.rows) (hcol : c.editCol < c.cols) (hedited : c.editedCells < 2 ^ 32)
    (hprint : ∀ ch ∈ chars, Printable ch) (hsync : InSync c fb)
    (hd : c.setEditLine chars (some fb) = .ok d) : ∃ fb', d.2 = some fb' ∧ InSync d.1 fb' := by
  have hcells : cellCount = 32768 := rfl
  have hdims := h.sized.dims
  have horigin := TextGrid.index_lt hrow hcol
  by_cases hchars : chars = [] ∧ c.editedCells = 0
  · rw [hchars.1, h.sized.setEditLine_nil horigin.le hchars.2] at hd
    cases hd
    exact ⟨fb, rfl, hsync⟩
  obtain ⟨g₁, htyped, hcursor, hsame, hline⟩ := h.sized.setEditLine_frame hrow hcol hedited hchars
  rw [hline] at hd
  obtain ⟨g, hput, hfinish⟩ := bind_eq_ok.mp hd
  have hgcols : g₁.cols = c.cols := htyped.cols
  have hwide : g₁.cols < 2 ^ 31 := by omega
  have htyped' := ((htyped.valid.putAll_cursor hwide chars c.fg c.bg).of_ok hput).1
  have hall := htyped.trans htyped'
  have hframed := h.edited hall (c.editRow * c.cols + c.editCol)
  rw [h.sized.finishEdit_eq (place_le hall) horigin.le hedited] at hfinish
  split at hfinish
  · obtain ⟨fb', hrender, -, hsync', -⟩ := hframed.render_inSync
    rw [hrender] at hfinish
    cases hfinish
    exact ⟨fb', rfl, hsync'⟩
  · next hscroll =>
    simp only [cursor, Cursor.mk.injEq] at hcursor
    obtain ⟨hgrow₁, hgcol₁, hscroll₁⟩ := hcursor
    obtain ⟨hplace, hsame'⟩ := htyped.valid.putAll_still hwide (by omega) hprint (by omega) hput
      (by omega)
    rw [place, place, hgrow₁, hgcol₁, hgcols, hall.cols] at hplace
    rw [place, hgrow₁, hgcol₁, hgcols] at hsame'
    have hgrid : c.freshGrid.cols = c.cols := rfl
    rw [hgrid] at hplace
    have hsome : 0 < chars.length ∨ 0 < c.editedCells := by
      by_contra hnone
      exact hchars ⟨List.length_eq_zero_iff.mp (by omega), by omega⟩
    have hlast : c.editRow * c.cols + c.editCol ≤
        max (c.editRow * c.cols + c.editCol + c.editedCells) (c.editRow * c.cols + c.editCol +
          (g.row * c.cols + g.col - (c.editRow * c.cols + c.editCol))) - 1 := by omega
    obtain ⟨fb', hrender, hsync'⟩ := h.renderRange_inSync hframed rfl rfl horigin hlast
      (fun i hi => (hsame' i (by omega)).trans (hsame i (by omega))) hsync
    rw [hrender] at hfinish
    cases hfinish
    exact ⟨fb', rfl, hsync'⟩

theorem Framed.setEditLine_returns {chars : List Char} (h : Framed c font fb)
    (hrow : c.editRow < c.rows) (hcol : c.editCol < c.cols) (hedited : c.editedCells < 2 ^ 32)
    (hprint : ∀ ch ∈ chars, Printable ch) (hlen : chars.length < 2 ^ 32) :
    ∃ d, c.setEditLine chars (some fb) = .ok d := by
  have hcells : cellCount = 32768 := rfl
  have hdims := h.sized.dims
  have horigin := TextGrid.index_lt hrow hcol
  by_cases hchars : chars = [] ∧ c.editedCells = 0
  · rw [hchars.1]
    exact ⟨_, h.sized.setEditLine_nil horigin.le hchars.2 (some fb)⟩
  obtain ⟨g₁, htyped, hcursor, -, hline⟩ := h.sized.setEditLine_frame hrow hcol hedited hchars
  simp only [cursor, Cursor.mk.injEq] at hcursor
  obtain ⟨-, hgcol₁, hscroll₁⟩ := hcursor
  have hgcols : g₁.cols = c.cols := htyped.cols
  have hwide : g₁.cols < 2 ^ 31 := by omega
  obtain ⟨g, hput⟩ := htyped.valid.putAll_returns hwide (by omega) hprint (by omega) c.fg c.bg
  have hall := htyped.trans ((htyped.valid.putAll_cursor hwide chars c.fg c.bg).of_ok hput).1
  have hframed := h.edited hall (c.editRow * c.cols + c.editCol)
  rw [hline, show putChars chars c.fg c.bg g₁ = .ok g from hput, ok_bind,
    h.sized.finishEdit_eq (place_le hall) horigin.le hedited]
  split
  · obtain ⟨fb', hrender, -⟩ := hframed.render_inSync
    exact ⟨_, by rw [hrender]; rfl⟩
  · obtain ⟨fb', hrender, -⟩ := hframed.sized.renderRange_ok h.ready
      (c.editRow * c.cols + c.editCol) (max (c.editRow * c.cols + c.editCol + c.editedCells)
        (c.editRow * c.cols + c.editCol +
          (g.row * c.cols + g.col - (c.editRow * c.cols + c.editCol))) - 1)
    exact ⟨_, by rw [hrender]; rfl⟩

theorem render_idle (fb : FrameBuffer) (hidle : c.cols = 0 ∨ c.rows = 0) :
    c.render fb = .ok fb ∧ InSync c fb ∧ SameOutside c fb fb := by
  refine ⟨if_pos hidle, ?_, fun _ _ _ _ _ => rfl⟩
  intro font _ row hrow col hcol
  omega

theorem onScreen_of_le (hwidth : c.cols * 8 ≤ fb.width) (hheight : c.rows * 16 ≤ fb.height) :
    OnScreen c fb := by
  intro font hparse
  obtain ⟨font', hparse', hsmall⟩ := parseFont_eq
  cases hparse.symm.trans hparse'
  rw [hsmall.width, hsmall.height]
  exact ⟨hwidth, hheight⟩

/-- `render` brings any framebuffer in sync and draws on the grid only, and an edit of the line
leaves one that was in sync in sync, scrolled or not; the line need not be shorter than the grid. -/
theorem repaint_in_sync {layout : FrameLayout} (hfb : FrameBuffer.fromLayout layout = .ok (.ok fb))
    (hnarrow : fb.Narrow) (hlen : c.cells.length = cellCount)
    (harea : c.cols * c.rows ≤ cellCount) (hscreen : OnScreen c fb) :
    (∃ fb', c.render fb = .ok fb' ∧ fb.Redrawn fb' ∧ InSync c fb' ∧ SameOutside c fb fb') ∧
    (c.editRow < c.rows → c.editCol < c.cols → c.editedCells < 2 ^ 32 → InSync c fb →
      ∀ chars : List Char, (∀ ch ∈ chars, Printable ch) →
        (chars.length < 2 ^ 32 → ∃ d, c.setEditLine chars (some fb) = .ok d) ∧
        ∀ d, c.setEditLine chars (some fb) = .ok d → ∃ fb', d.2 = some fb' ∧ InSync d.1 fb') := by
  obtain ⟨font, hparse, hsmall⟩ := parseFont_eq
  obtain ⟨hwidth, hheight⟩ := hscreen font hparse
  rw [hsmall.width] at hwidth
  rw [hsmall.height] at hheight
  have hframed : 0 < c.cols → 0 < c.rows → Framed c font fb := fun hcols hrows =>
    ⟨⟨hcols, hrows, harea, hlen⟩, hparse, hsmall, ⟨FrameBuffer.Valid.of_fromLayout hfb, hnarrow⟩,
      FrameBuffer.Packed.of_fromLayout hfb, hwidth, hheight⟩
  constructor
  · by_cases hidle : c.cols = 0 ∨ c.rows = 0
    · obtain ⟨hrender, hsync, hsame⟩ := render_idle fb hidle
      exact ⟨fb, hrender, FrameBuffer.Redrawn.refl fb, hsync, hsame⟩
    · exact (hframed (by omega) (by omega)).render_inSync
  · intro hrow hcol hedited hsync chars hprint
    have h := hframed (by omega) (by omega)
    exact ⟨h.setEditLine_returns hrow hcol hedited hprint, fun d =>
      h.setEditLine_inSync hrow hcol hedited hprint hsync⟩

theorem repaint_in_sync_two_cells : ∃ fb fb' d fb'',
    FrameBuffer.fromLayout (FrameLayout.screen 16 16 64) = .ok (.ok fb) ∧
    render { new with cols := 2, rows := 1 } fb = .ok fb' ∧
    InSync { new with cols := 2, rows := 1 } fb' ∧
    setEditLine { new with cols := 2, rows := 1 } ['a'] (some fb') = .ok d ∧
    d.2 = some fb'' ∧ InSync d.1 fb'' := by
  obtain ⟨fb, hlayout, hnarrow, hwidth, hheight⟩ : ∃ fb,
      FrameBuffer.fromLayout (FrameLayout.screen 16 16 64) = .ok (.ok fb) ∧ fb.Narrow ∧
        2 * 8 ≤ fb.width ∧ 1 * 16 ≤ fb.height :=
    ⟨_, rfl, ⟨by decide, by decide, by decide⟩, by decide, by decide⟩
  have hlen : new.cells.length = cellCount := List.length_replicate
  obtain ⟨⟨fb', hrender, ⟨surface, rfl⟩, hsync, -⟩, -⟩ :=
    repaint_in_sync (c := { new with cols := 2, rows := 1 }) hlayout hnarrow hlen (by decide)
      (onScreen_of_le hwidth hheight)
  obtain ⟨-, hedit⟩ := repaint_in_sync (c := { new with cols := 2, rows := 1 })
    (FrameBuffer.fromLayout_surface hlayout surface) ⟨hnarrow.red, hnarrow.green, hnarrow.blue⟩
    hlen (by decide) (onScreen_of_le hwidth hheight)
  have hprint : ∀ ch ∈ ['a'], Printable ch := by
    simp only [List.mem_singleton, forall_eq]
    exact ⟨by decide, by decide, by decide⟩
  obtain ⟨hreturns, hsyncs⟩ := hedit (by decide) (by decide) (by decide) hsync ['a'] hprint
  obtain ⟨d, hd⟩ := hreturns (by decide)
  obtain ⟨fb'', hfb, hsync'⟩ := hsyncs d hd
  exact ⟨fb, _, d, fb'', hlayout, hrender, hsync, hd, hfb, hsync'⟩

end FerricK.Console
