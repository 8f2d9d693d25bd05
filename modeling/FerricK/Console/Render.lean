import FerricK.Console.Defs
import FerricK.Framebuffer.Layout
import FerricK.Grid.Bounds

namespace FerricK.Console

open Rust

structure Sized (c : Console) : Prop where
  cols_pos : 0 < c.cols
  rows_pos : 0 < c.rows
  area_le : c.cols * c.rows ≤ cellCount
  length : c.cells.length = cellCount

variable {c : Console} {fb : FrameBuffer} {font : Font} {row col first last : Nat}

def freshGrid (c : Console) : TextGrid :=
  ⟨c.cells, c.cols, c.rows, 0, 0, ⟨0xC0, 0xC0, 0xC0⟩, ⟨0, 0, 0⟩, 0⟩

theorem Sized.grid_eq (h : Sized c) : c.grid = .ok c.freshGrid := by
  have hcells : cellCount = 32768 := rfl
  have harea := h.area_le
  have hnew : TextGrid.new c.cells c.cols c.rows = some c.freshGrid :=
    TextGrid.new_eq_some.mpr ⟨by omega, ⟨h.cols_pos, h.rows_pos, h.length ▸ harea⟩, rfl⟩
  rw [grid, hnew, expect_some]

theorem Sized.valid_freshGrid (h : Sized c) : c.freshGrid.Valid := by
  have hcells : cellCount = 32768 := rfl
  have harea := h.area_le
  have hlt : c.cols * c.rows < 2 ^ 32 := by omega
  exact ⟨h.cols_pos, h.rows_pos, hlt, harea.trans_eq h.length.symm, h.rows_pos, Nat.zero_le _,
    show 0 < 2 ^ 32 by omega⟩

theorem parseFont_eq : ∃ font, parseFont = .ok font ∧ Font.Small font := by
  obtain ⟨font, hfont, hsmall⟩ := Font.parse_fontData
  exact ⟨font, by rw [parseFont, hfont]; rfl, hsmall⟩

theorem Sized.dims (h : Sized c) : c.cols ≤ cellCount ∧ c.rows ≤ cellCount := by
  have harea := h.area_le
  have hcols : c.cols * 1 ≤ c.cols * c.rows := Nat.mul_le_mul_left _ h.rows_pos
  have hrows : 1 * c.rows ≤ c.cols * c.rows := Nat.mul_le_mul_right _ h.cols_pos
  omega

theorem Sized.getElem?_cell (h : Sized c) (hrow : row < c.rows) (hcol : col < c.cols) :
    ∃ cell, c.cells[row * c.cols + col]? = some cell := by
  have harea := h.area_le
  have hlen := h.length
  have hlt := TextGrid.index_lt hrow hcol
  exact ⟨_, List.getElem?_eq_getElem (show row * c.cols + col < c.cells.length by omega)⟩

theorem blitPixel_ok {glyph fgWord bgWord px py gy gx : Nat} (hfont : Font.Small font)
    (hfb : fb.Ready) (hx : gx < 8) (hy : gy < 16) (hpx : px + gx < 2 ^ 32)
    (hpy : py + gy < 2 ^ 32) :
    ∃ fb', blitPixel font glyph fgWord bgWord px py gy gx fb = .ok fb' ∧ fb'.Ready := by
  obtain ⟨set, hset⟩ := hfont.glyphPixel_ok glyph (x := gx) (y := gy) (by omega) (by omega)
  obtain ⟨r, surface, hwrite⟩ := hfb.valid.writeWord_ok (px + gx) (py + gy)
    (if set.getD false then fgWord else bgWord)
  refine ⟨_, ?_, hfb.setSurface surface⟩
  rw [blitPixel, hset, ok_bind, uadd_of_lt hpx, ok_bind, uadd_of_lt hpy, ok_bind, hwrite, ok_bind,
    pure_eq_ok]

theorem Sized.blitCell_eq {cell : Cell} {glyph : Option Nat} {fgWord bgWord : Nat} (h : Sized c)
    (hfont : Font.Small font) (hrow : row < c.rows) (hcol : col < c.cols)
    (hcell : c.cells[row * c.cols + col]? = some cell)
    (hglyph : font.glyphIndexFor cell.glyph = .ok glyph) (hfg : fb.encode cell.fg = .ok fgWord)
    (hbg : fb.encode cell.bg = .ok bgWord) :
    c.blitCell font row col fb = forRange 16 (fun gy =>
      forRange 8 (blitPixel font (glyph.getD 0) fgWord bgWord (col * 8) (row * 16) gy)) fb := by
  have hcells : cellCount = 32768 := rfl
  have hdims := h.dims
  have harea := h.area_le
  have hlt := TextGrid.index_lt hrow hcol
  rw [blitCell, umul_of_lt (by omega), ok_bind, uadd_of_lt (by omega), ok_bind,
    index_eq_ok.mpr hcell, ok_bind, hglyph, ok_bind]
  simp only
  rw [hfg, ok_bind, hbg, ok_bind, hfont.width, umul_of_lt (by omega), ok_bind, hfont.height,
    umul_of_lt (by omega), ok_bind]

theorem Sized.blitCell_ok (h : Sized c) (hfont : Font.Small font) (hfb : fb.Ready)
    (hrow : row < c.rows) (hcol : col < c.cols) :
    ∃ fb', c.blitCell font row col fb = .ok fb' ∧ fb'.Ready := by
  have hcells : cellCount = 32768 := rfl
  have hdims := h.dims
  obtain ⟨cell, hcell⟩ := h.getElem?_cell hrow hcol
  obtain ⟨glyph, hglyph⟩ := hfont.safe.lookup cell.glyph
  obtain ⟨fgWord, hfg⟩ := hfb.encode_ok cell.fg
  obtain ⟨bgWord, hbg⟩ := hfb.encode_ok cell.bg
  rw [h.blitCell_eq hfont hrow hcol hcell hglyph hfg hbg]
  refine forRange_rule (fun _ => FrameBuffer.Ready) hfb fun gy hgy fb hfb => ?_
  exact forRange_rule (fun _ => FrameBuffer.Ready) hfb fun gx hgx fb hfb =>
    blitPixel_ok hfont hfb (by omega) (by omega) (by omega) (by omega)

theorem Sized.render_ok (h : Sized c) (hfb : fb.Ready) :
    ∃ fb', c.render fb = .ok fb' ∧ fb'.Ready := by
  have hcols := h.cols_pos
  have hrows := h.rows_pos
  obtain ⟨font, hparse, hfont⟩ := parseFont_eq
  rw [render, if_neg (by omega), hparse, ok_bind]
  refine forRange_rule (fun _ => FrameBuffer.Ready) hfb fun row hrow fb hfb => ?_
  exact forRange_rule (fun _ => FrameBuffer.Ready) hfb fun col hcol fb hfb =>
    h.blitCell_ok hfont hfb hrow hcol

theorem clampRange_lt {total : Nat} (h : 0 < total) (first last : Nat) :
    (clampRange total first last).2 < total := by
  unfold clampRange
  split <;> simp only <;> omega

theorem Sized.renderRange_ok (h : Sized c) (hfb : fb.Ready) (first last : Nat) :
    ∃ fb', c.renderRange first last fb = .ok fb' ∧ fb'.Ready := by
  have hcols := h.cols_pos
  have hrows := h.rows_pos
  have harea := h.area_le
  have hcells : cellCount = 32768 := rfl
  rw [Nat.mul_comm] at harea
  have hlast := clampRange_lt (Nat.mul_pos hrows hcols) first last
  obtain ⟨font, hparse, hfont⟩ := parseFont_eq
  rw [renderRange, if_neg (by omega), umul_of_lt (by omega), ok_bind]
  simp only
  split
  · exact ⟨fb, rfl, hfb⟩
  rw [hparse, ok_bind]
  apply forEach_rule FrameBuffer.Ready hfb
  intro i hi fb hfb
  obtain ⟨_, hi⟩ := List.mem_range'_1.mp hi
  have hlt : i < c.cols * c.rows := by
    rw [Nat.mul_comm c.cols]
    omega
  exact h.blitCell_ok hfont hfb (Nat.div_lt_of_lt_mul hlt) (Nat.mod_lt i hcols)

theorem Sized.setEditLine_eq (h : Sized c)
    (horigin : c.editRow * c.cols + c.editCol ≤ c.cols * c.rows) (chars : List Char)
    (fb : Option FrameBuffer) :
    c.setEditLine chars fb =
      if chars = [] ∧ c.editedCells = 0 then return (c, fb)
      else blankEdited (c.editRow * c.cols + c.editCol) (c.rows * c.cols) c.cols
          (Cell.blank c.fg c.bg) c.editedCells 0 c.freshGrid >>= fun g =>
        putChars chars c.fg c.bg (g.setCursor c.editRow c.editCol) >>= fun g =>
        c.finishEdit (c.editRow * c.cols + c.editCol) g fb := by
  have hcols := h.cols_pos
  have hrows := h.rows_pos
  have harea := h.area_le
  have hcells : cellCount = 32768 := rfl
  have htotal := Nat.mul_comm c.rows c.cols
  rw [setEditLine, if_neg (by omega), umul_of_lt (by omega), ok_bind, uadd_of_lt (by omega),
    ok_bind]
  simp only
  split
  · rfl
  · rw [umul_of_lt (by omega), ok_bind, h.grid_eq, ok_bind]

theorem Sized.setEditLine_nil (h : Sized c)
    (horigin : c.editRow * c.cols + c.editCol ≤ c.cols * c.rows) (hedited : c.editedCells = 0)
    (fb : Option FrameBuffer) : c.setEditLine [] fb = .ok (c, fb) := by
  rw [h.setEditLine_eq horigin, if_pos ⟨rfl, hedited⟩]
  rfl

def edited (c : Console) (origin : Nat) (g : TextGrid) : Console := { c with
  cells := g.cells
  editedCells := g.row * c.cols + g.col - origin
  cursorRow := g.row
  cursorCol := g.col
  editRow := c.editRow - g.scrollCount }

theorem Sized.finishEdit_eq {origin : Nat} {g : TextGrid} (h : Sized c)
    (hplace : g.row * c.cols + g.col ≤ c.cols * c.rows) (horigin : origin ≤ c.cols * c.rows)
    (hedited : c.editedCells < 2 ^ 32) (fb : FrameBuffer) :
    c.finishEdit origin g (some fb) =
      if g.scrollCount > 0 then do
        return (c.edited origin g, some (← (c.edited origin g).render fb))
      else do
        return (c.edited origin g, some (← (c.edited origin g).renderRange origin
          (max (origin + c.editedCells) (origin + (g.row * c.cols + g.col - origin)) - 1) fb)) := by
  have harea := h.area_le
  have hcells : cellCount = 32768 := rfl
  have hmod : (g.row * c.cols + g.col - origin) % 2 ^ 32 = g.row * c.cols + g.col - origin :=
    Nat.mod_eq_of_lt (by omega)
  rw [finishEdit, umul_of_lt (by omega), ok_bind, uadd_of_lt (by omega), ok_bind]
  simp only [hmod]
  split
  · rfl
  · next hstill =>
    have hrow : c.editRow = c.editRow - g.scrollCount := by omega
    rw [uadd_of_lt (by omega), ok_bind, uadd_of_lt (by omega), ok_bind, edited, ← hrow]

theorem Sized.finishEdit_ok {origin : Nat} {g : TextGrid} (h : Sized c) (hfb : fb.Ready)
    (hlen : g.cells.length = cellCount) (hplace : g.row * c.cols + g.col ≤ c.cols * c.rows)
    (horigin : origin ≤ c.cols * c.rows) (hedited : c.editedCells ≤ c.cols * c.rows) :
    ∃ fb', c.finishEdit origin g (some fb) = .ok (c.edited origin g, some fb') ∧ fb'.Ready := by
  have harea := h.area_le
  have hcells : cellCount = 32768 := rfl
  have hsized : Sized (c.edited origin g) := ⟨h.cols_pos, h.rows_pos, h.area_le, hlen⟩
  rw [h.finishEdit_eq hplace horigin (by omega)]
  split
  · obtain ⟨fb', hrender, hfb'⟩ := hsized.render_ok hfb
    exact ⟨fb', by rw [hrender]; rfl, hfb'⟩
  · obtain ⟨fb', hrender, hfb'⟩ := hsized.renderRange_ok hfb origin
      (max (origin + c.editedCells) (origin + (g.row * c.cols + g.col - origin)) - 1)
    exact ⟨fb', by rw [hrender]; rfl, hfb'⟩

end FerricK.Console
