import FerricK.Console.Repaint
import FerricK.Framebuffer.Drawn

namespace FerricK.Console

open Rust Raster FrameBuffer

def blitCells (c : Console) (font : Font) (row0 row1 col0 col1 : Nat) (fb : FrameBuffer) :
    Rust FrameBuffer :=
  forEach (List.range' row0 (row1 + 1 - row0))
    (fun row => forEach (List.range' col0 (col1 + 1 - col0)) fun col => c.blitCell font row col) fb

/-- The sums are of `u32`s in `u64`, so they do not saturate; a refusal of the fill is dropped. -/
def repaintRect (c : Console) (x y w h : Nat) (fb : FrameBuffer) : Rust FrameBuffer :=
  if c.cols = 0 ∨ c.rows = 0 ∨ w = 0 ∨ h = 0 then return fb
  else do
    let font ← parseFont
    let row0 := min (← udiv y font.height) (c.rows - 1)
    let col0 := min (← udiv x font.width) (c.cols - 1)
    let row1 := min (← udiv (y + h - 1) font.height) (c.rows - 1)
    let col1 := min (← udiv (x + w - 1) font.width) (c.cols - 1)
    let (_, fb) ← fb.fillRect x y w h c.bg
    c.blitCells font row0 row1 col0 col1 fb

/-- What the console has for a pixel: that of the glyph in the grid, the background elsewhere. -/
def backdrop (c : Console) (font : Font) (fb : FrameBuffer) (p : Nat × Nat) : Rust Nat :=
  if p.1 < c.cols * font.width ∧ p.2 < c.rows * font.height then
    c.cellWord font fb (p.2 / font.height) (p.1 / font.width) (p.1 % font.width)
      (p.2 % font.height)
  else fb.encode c.bg

def ShowsAt (c : Console) (font : Font) (fb : FrameBuffer) (p : Nat × Nat) : Prop :=
  ∃ word, c.backdrop font fb p = .ok word ∧ fb.readRawPixel p.1 p.2 = .ok (some word)

/-- All of `R` that is on the surface shows the console, and what showed it elsewhere is as it
was. -/
structure Restored (c : Console) (font : Font) (R : Set (Nat × Nat)) (fb fb' : FrameBuffer) :
    Prop where
  inside : ∀ p ∈ R, p ∈ fb.area → c.ShowsAt font fb' p
  outside : ∀ p ∉ R, p ∈ fb.area → c.ShowsAt font fb p →
    fb'.readRawPixel p.1 p.2 = fb.readRawPixel p.1 p.2

def cellsArea (row0 row1 col0 col1 : Nat) : Set (Nat × Nat) :=
  {p | (row0 ≤ p.2 / 16 ∧ p.2 / 16 ≤ row1) ∧ col0 ≤ p.1 / 8 ∧ p.1 / 8 ≤ col1}

variable {c : Console} {font : Font} {fb fb' : FrameBuffer} {p : Nat × Nat} {x y w h word : Nat}
  {row0 row1 col0 col1 : Nat}

theorem Backed.showsAt_iff (hb : Backed c font fb) (hword : fb.encode c.bg = .ok word)
    (hp : p ∈ fb.area) : c.ShowsAt font fb p ↔
      (p ∈ c.gridArea → fb.pixel p = c.picture font fb p) ∧
        (p ∉ c.gridArea → fb.pixel p = word) := by
  rw [ShowsAt, backdrop, hb.ready.valid.readRawPixel_eq hb.packed hp, hb.small.width,
    hb.small.height]
  by_cases hgrid : p ∈ c.gridArea
  · have hcol : p.1 / 8 < c.cols := Nat.div_lt_of_lt_mul (by have := hgrid.1; omega)
    have hrow : p.2 / 16 < c.rows := Nat.div_lt_of_lt_mul (by have := hgrid.2; omega)
    obtain ⟨cellWord, hcell⟩ := hb.cellWord_ok hrow hcol (Nat.mod_lt p.1 (by decide))
      (Nat.mod_lt p.2 (by decide))
    have hpicture : c.picture font fb p = cellWord := by
      rw [picture, hcell]
      rfl
    have hif : p.1 < c.cols * 8 ∧ p.2 < c.rows * 16 := hgrid
    rw [if_pos hif, hcell, hpicture]
    simp [hgrid, eq_comm]
  · have hif : ¬(p.1 < c.cols * 8 ∧ p.2 < c.rows * 16) := hgrid
    rw [if_neg hif, hword]
    simp [hgrid, eq_comm]

theorem Backed.blitCells_painted {fb₁ : FrameBuffer} (hb : Backed c font fb) (hr : fb.Redrawn fb₁)
    (row0 col0 : Nat) (hrow : row1 < c.rows) (hcol : col1 < c.cols) :
    ∃ fb₂, c.blitCells font row0 row1 col0 col1 fb₁ = .ok fb₂ ∧ fb.Redrawn fb₂ ∧
      Painted fb.area (cellsArea row0 row1 col0 col1) (c.picture font fb) fb₁.pixel fb₂.pixel := by
  obtain ⟨fb₂, hloop, hredrawn, hpainted⟩ := forEach_painted FrameBuffer.pixel fb.Redrawn
    (D := fb.area) (w := c.picture font fb) (l := List.range' row0 (row1 + 1 - row0))
    (R := fun row => {p | ∃ col ∈ List.range' col0 (col1 + 1 - col0), p ∈ cellArea row col}) hr
    fun row hrow fb₁ hr => forEach_painted FrameBuffer.pixel fb.Redrawn hr fun col hcol fb₁ hr => by
      have hrow := List.mem_range'_1.mp hrow
      have hcol := List.mem_range'_1.mp hcol
      exact hb.blitCell_redrawn hr (by omega) (by omega)
  refine ⟨fb₂, hloop, hredrawn, hpainted.congr fun p _ => ?_⟩
  simp only [cellsArea, cellArea, Set.mem_ofPred_eq, List.mem_range'_1]
  constructor
  · rintro ⟨row, hrow, col, hcol, rfl, rfl⟩
    omega
  · intro hp
    exact ⟨p.2 / 16, by omega, p.1 / 8, by omega, rfl, rfl⟩

theorem Backed.fill_painted (hb : Backed c font fb) (hsize : 0 < w ∧ 0 < h)
    (hword : fb.encode c.bg = .ok word) :
    ∃ r fb', fb.fillRect x y w h c.bg = .ok (r, fb') ∧ fb.Redrawn fb' ∧
      Painted fb.area {p | p ∈ rect x y w h ∧ rect x y w h ⊆ fb.area} (fun _ => word) fb.pixel
        fb'.pixel := by
  by_cases hcheck : w = 0 ∨ h = 0 ∨ x + w > fb.width ∨ y + h > fb.height
  · have hout : ¬ rect x y w h ⊆ fb.area := by
      intro hsub
      refine not_outside_iff.mp ?_ hcheck
      rintro (hw | hh | hout)
      · omega
      · omega
      · exact hout hsub
    refine ⟨_, fb, if_pos hcheck, Redrawn.refl fb, ⟨?_, fun _ _ _ => rfl⟩⟩
    exact fun p _ hp => absurd hp.2 hout
  · obtain ⟨word', fb', hword', hfill, hdrawn⟩ := hb.ready.fillRect_drawn hb.packed hcheck c.bg
    cases hword.symm.trans hword'
    have hin : rect x y w h ⊆ fb.area := (rect_subset.mpr hcheck).2
    exact ⟨_, fb', hfill, hdrawn.on.redrawn, hdrawn.painted.congr fun p _ =>
      ⟨fun hp => ⟨hp, hin⟩, fun hp => hp.1⟩⟩

/-- The cells that are redrawn are all the rectangle meets, and none outside the grid. -/
theorem cellsArea_cover (hcols : 0 < c.cols) (hrows : 0 < c.rows) {R : Set (Nat × Nat)}
    (hR : R = cellsArea (min (y / 16) (c.rows - 1)) (min ((y + h - 1) / 16) (c.rows - 1))
      (min (x / 8) (c.cols - 1)) (min ((x + w - 1) / 8) (c.cols - 1))) :
    R ⊆ c.gridArea ∧ ∀ p ∈ rect x y w h, p ∈ c.gridArea → p ∈ R := by
  subst hR
  constructor
  · rintro p ⟨⟨-, hrow⟩, -, hcol⟩
    exact ⟨by omega, by omega⟩
  · rintro p ⟨⟨hx, hx'⟩, hy, hy'⟩ ⟨hcol, hrow⟩
    have hx₁ : x / 8 ≤ p.1 / 8 := Nat.div_le_div_right hx
    have hx₂ : p.1 / 8 ≤ (x + w - 1) / 8 := Nat.div_le_div_right (by omega)
    have hy₁ : y / 16 ≤ p.2 / 16 := Nat.div_le_div_right hy
    have hy₂ : p.2 / 16 ≤ (y + h - 1) / 16 := Nat.div_le_div_right (by omega)
    refine ⟨⟨?_, ?_⟩, ?_, ?_⟩ <;> omega

theorem Backed.repaintRect_pixel (hb : Backed c font fb) (hsize : 0 < w ∧ 0 < h)
    (hword : fb.encode c.bg = .ok word) :
    ∃ fb' R, c.repaintRect x y w h fb = .ok fb' ∧ fb.Redrawn fb' ∧
      (R ⊆ c.gridArea ∧ ∀ p ∈ rect x y w h, p ∈ c.gridArea → p ∈ R) ∧
      ∀ p ∈ fb.area, (p ∈ R → fb'.pixel p = c.picture font fb p) ∧
        (p ∉ R → p ∈ rect x y w h → rect x y w h ⊆ fb.area → fb'.pixel p = word) ∧
        (p ∉ R → ¬(p ∈ rect x y w h ∧ rect x y w h ⊆ fb.area) → fb'.pixel p = fb.pixel p) := by
  have hcols := hb.sized.cols_pos
  have hrows := hb.sized.rows_pos
  obtain ⟨r, fb₁, hfill, hr₁, hfilled⟩ := hb.fill_painted (x := x) (y := y) hsize hword
  have hrow : min ((y + h - 1) / 16) (c.rows - 1) < c.rows := by omega
  have hcol : min ((x + w - 1) / 8) (c.cols - 1) < c.cols := by omega
  obtain ⟨fb₂, hblit, hr₂, hblitted⟩ := hb.blitCells_painted hr₁
    (min (y / 16) (c.rows - 1)) (min (x / 8) (c.cols - 1)) hrow hcol
  refine ⟨fb₂, _, ?_, hr₂, cellsArea_cover hcols hrows rfl, fun p hp => ⟨?_, ?_, ?_⟩⟩
  · have hidle : ¬(c.cols = 0 ∨ c.rows = 0 ∨ w = 0 ∨ h = 0) := by omega
    rw [repaintRect, if_neg hidle, hb.parse, ok_bind, hb.small.width, hb.small.height,
      udiv_of_pos (by decide), ok_bind, udiv_of_pos (by decide), ok_bind,
      udiv_of_pos (by decide), ok_bind, udiv_of_pos (by decide), ok_bind, hfill, ok_bind]
    exact hblit
  · exact hblitted.inside p hp
  · intro hout hrect hfits
    rw [hblitted.outside p hp hout]
    exact hfilled.inside p hp ⟨hrect, hfits⟩
  · intro hout hrefused
    rw [hblitted.outside p hp hout, hfilled.outside p hp hrefused]

/-- The rectangle is restored when all of it is on the surface; else only if the background was
there already, wherever there is no cell. -/
theorem Backed.restored_iff (hb : Backed c font fb) (hsize : 0 < w ∧ 0 < h) :
    ∃ fb', c.repaintRect x y w h fb = .ok fb' ∧
      (Restored c font (rect x y w h) fb fb' ↔ rect x y w h ⊆ fb.area ∨
        ∀ p ∈ rect x y w h, p ∈ fb.area → p ∉ c.gridArea → c.ShowsAt font fb p) := by
  obtain ⟨word, hword⟩ := hb.ready.encode_ok c.bg
  obtain ⟨fb', R, hrepaint, hr, ⟨hgrid, hcover⟩, hpixel⟩ :=
    hb.repaintRect_pixel (x := x) (y := y) hsize hword
  have hb' := hb.redrawn hr
  have hword' : fb'.encode c.bg = .ok word := by
    obtain ⟨surface, rfl⟩ := hr
    exact hword
  refine ⟨fb', hrepaint, ?_, ?_⟩
  · intro hrestored
    by_cases hfits : rect x y w h ⊆ fb.area
    · exact .inl hfits
    refine .inr fun p hp harea hout => ?_
    have hshows := (hb'.showsAt_iff hword' (hr.area ▸ harea)).mp (hrestored.inside p hp harea)
    have hkept : fb'.pixel p = fb.pixel p :=
      (hpixel p harea).2.2 (fun hR => hout (hgrid hR)) fun hboth => hfits hboth.2
    rw [hb.showsAt_iff hword harea, ← hkept]
    exact ⟨fun hin => absurd hin hout, fun _ => hshows.2 hout⟩
  · intro hcond
    refine ⟨fun p hp harea => ?_, fun p hp harea hshows => ?_⟩
    · rw [hb'.showsAt_iff hword' (hr.area ▸ harea), picture_redrawn hr]
      refine ⟨fun hin => (hpixel p harea).1 (hcover p hp hin), fun hout => ?_⟩
      have hR : p ∉ R := fun hR => hout (hgrid hR)
      by_cases hfits : rect x y w h ⊆ fb.area
      · exact (hpixel p harea).2.1 hR hp hfits
      · rw [(hpixel p harea).2.2 hR fun hboth => hfits hboth.2]
        have hbefore := hcond.resolve_left hfits p hp harea hout
        exact ((hb.showsAt_iff hword harea).mp hbefore).2 hout
    · rw [hb'.ready.valid.readRawPixel_eq hb'.packed (hr.area ▸ harea),
        hb.ready.valid.readRawPixel_eq hb.packed harea]
      by_cases hR : p ∈ R
      · rw [(hpixel p harea).1 hR, ((hb.showsAt_iff hword harea).mp hshows).1 (hgrid hR)]
      · rw [(hpixel p harea).2.2 hR fun hboth => hp hboth.1]

end FerricK.Console
