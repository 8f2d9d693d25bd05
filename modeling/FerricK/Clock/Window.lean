import FerricK.Console.Restore

namespace FerricK

open Rust

/-- The coordinates are `i32`s. -/
structure ClockWindow where
  x : Int
  y : Int
  deriving DecidableEq

namespace ClockWindow

def width : Nat := 220
def height : Nat := 180

def placeCentered (screenWidth screenHeight : Nat) : ClockWindow where
  x := asI32 ((screenWidth - width) / 2)
  y := asI32 ((screenHeight - height) / 2)

def translate (window : ClockWindow) (dx dy : Int) (screenWidth screenHeight : Nat) :
    Rust ClockWindow := do
  let maxX := asI32 (screenWidth - width)
  let maxY := asI32 (screenHeight - height)
  return {
    x := min (max (← iadd 32 window.x dx) 0) maxX
    y := min (max (← iadd 32 window.y dy) 0) maxY }

inductive Reaches (screenWidth screenHeight : Nat) : ClockWindow → Prop
  | placed : Reaches screenWidth screenHeight (placeCentered screenWidth screenHeight)
  | moved {window window' : ClockWindow} (dx dy : Int)
      (h : Reaches screenWidth screenHeight window)
      (hmove : window.translate dx dy screenWidth screenHeight = .ok window') :
      Reaches screenWidth screenHeight window'

def area (window : ClockWindow) : Set (Nat × Nat) :=
  FrameBuffer.rect (asU32 window.x) (asU32 window.y) width height

variable {window : ClockWindow} {screenWidth screenHeight : Nat}

theorem asU32_clamp {a : Int} {n : Nat} (hn : n < 2 ^ 32) :
    asU32 (min (max a 0) (asI32 n)) ≤ n := by
  unfold asU32 asI32
  split <;> omega

theorem asU32_asI32_half {n : Nat} (hn : n < 2 ^ 32) : asU32 (asI32 (n / 2)) ≤ n := by
  unfold asU32 asI32
  split <;> omega

theorem Reaches.origin_le (h : Reaches screenWidth screenHeight window)
    (hwidth : screenWidth < 2 ^ 32) (hheight : screenHeight < 2 ^ 32) :
    asU32 window.x ≤ screenWidth - width ∧ asU32 window.y ≤ screenHeight - height := by
  cases h with
  | placed => exact ⟨asU32_asI32_half (by omega), asU32_asI32_half (by omega)⟩
  | moved dx dy h hmove =>
    obtain ⟨x, -, hmove⟩ := bind_eq_ok.mp hmove
    obtain ⟨y, -, hmove⟩ := bind_eq_ok.mp hmove
    rw [← Except.ok.inj hmove]
    exact ⟨asU32_clamp (by omega), asU32_clamp (by omega)⟩

theorem Reaches.fits_iff {fb : FrameBuffer} (h : Reaches fb.width fb.height window)
    (hwidth : fb.width < 2 ^ 32) (hheight : fb.height < 2 ^ 32) :
    window.area ⊆ fb.area ↔ width ≤ fb.width ∧ height ≤ fb.height := by
  obtain ⟨hx, hy⟩ := h.origin_le hwidth hheight
  have hw : width = 220 := rfl
  have hh : height = 180 := rfl
  constructor
  · intro hsub
    have hnonempty : window.area.Nonempty :=
      ⟨(asU32 window.x, asU32 window.y), ⟨le_rfl, by simp only; omega⟩, le_rfl, by simp only; omega⟩
    have hcheck := FrameBuffer.rect_subset.mp ⟨hnonempty, hsub⟩
    omega
  · intro hfits
    exact (FrameBuffer.rect_subset.mpr (by omega)).2

end ClockWindow

open Console

theorem backed_of_fromLayout {layout : FrameLayout} {fb : FrameBuffer} {font : Font}
    {c : Console} (hfb : FrameBuffer.fromLayout layout = .ok (.ok fb)) (hnarrow : fb.Narrow)
    (hparse : parseFont = .ok font) (hsized : Sized c) : Backed c font fb := by
  obtain ⟨font', hparse', hsmall⟩ := parseFont_eq
  cases hparse.symm.trans hparse'
  exact ⟨hsized, hparse, hsmall, ⟨FrameBuffer.Valid.of_fromLayout hfb, hnarrow⟩,
    FrameBuffer.Packed.of_fromLayout hfb⟩

/-- What was behind the window shows again if the screen holds one; else the part of the window's
place that is on the screen but not in the grid keeps what the window left there. -/
theorem repaint_rect_restores {layout : FrameLayout} {fb : FrameBuffer} {font : Font}
    {c : Console} {window : ClockWindow} (hfb : FrameBuffer.fromLayout layout = .ok (.ok fb))
    (hnarrow : fb.Narrow) (hparse : parseFont = .ok font) (hlen : c.cells.length = cellCount)
    (hcols : 0 < c.cols) (hrows : 0 < c.rows) (harea : c.cols * c.rows ≤ cellCount)
    (hreaches : window.Reaches fb.width fb.height) :
    ∃ fb', c.repaintRect (asU32 window.x) (asU32 window.y) ClockWindow.width ClockWindow.height
        fb = .ok fb' ∧
      (Restored c font window.area fb fb' ↔
        (ClockWindow.width ≤ fb.width ∧ ClockWindow.height ≤ fb.height) ∨
          ∀ p ∈ window.area, p ∈ fb.area →
            ¬(p.1 < c.cols * font.width ∧ p.2 < c.rows * font.height) → c.ShowsAt font fb p) := by
  have hb := backed_of_fromLayout hfb hnarrow hparse ⟨hcols, hrows, harea, hlen⟩
  have hvalid := hb.ready.valid
  obtain ⟨fb', hrepaint, hiff⟩ := hb.restored_iff (x := asU32 window.x) (y := asU32 window.y)
    (w := ClockWindow.width) (h := ClockWindow.height) (by decide)
  refine ⟨fb', hrepaint, ?_⟩
  rw [hb.small.width, hb.small.height, ← hreaches.fits_iff hvalid.width_lt hvalid.height_lt]
  exact hiff

theorem repaint_rect_restores_vga : ∃ fb font fb',
    FrameBuffer.fromLayout (FrameLayout.screen 640 480 2560) = .ok (.ok fb) ∧
    parseFont = .ok font ∧
    repaintRect { new with cols := 80, rows := 30 } 210 150 220 180 fb = .ok fb' ∧
    Restored { new with cols := 80, rows := 30 } font (ClockWindow.area ⟨210, 150⟩) fb fb' := by
  obtain ⟨font, hparse, -⟩ := parseFont_eq
  obtain ⟨fb, hfb, hnarrow, hwidth, hheight⟩ : ∃ fb,
      FrameBuffer.fromLayout (FrameLayout.screen 640 480 2560) = .ok (.ok fb) ∧ fb.Narrow ∧
        fb.width = 640 ∧ fb.height = 480 :=
    ⟨_, rfl, ⟨by decide, by decide, by decide⟩, rfl, rfl⟩
  have hreaches : (⟨210, 150⟩ : ClockWindow).Reaches fb.width fb.height := by
    rw [hwidth, hheight]
    exact .placed
  obtain ⟨fb', hrepaint, hiff⟩ := repaint_rect_restores (c := { new with cols := 80, rows := 30 })
    hfb hnarrow hparse List.length_replicate (by decide) (by decide) (by decide) hreaches
  refine ⟨fb, font, fb', hfb, hparse, hrepaint, hiff.mpr (.inl ?_)⟩
  rw [hwidth, hheight]
  decide

def lowScreen : FrameLayout :=
  { FrameLayout.screen 300 100 1200 with
    surface := fun a => [0x29, 0x20, 0x1E, 0x00].getD (a % 4) 0 }

theorem repaint_rect_leaves_strip :
    ¬ ∀ (layout : FrameLayout) (fb : FrameBuffer) (font : Font) (c : Console)
      (window : ClockWindow), FrameBuffer.fromLayout layout = .ok (.ok fb) → fb.Narrow →
      parseFont = .ok font → c.cells.length = cellCount → 0 < c.cols → 0 < c.rows →
      c.cols * c.rows ≤ cellCount → window.Reaches fb.width fb.height →
      ∃ fb', c.repaintRect (asU32 window.x) (asU32 window.y) ClockWindow.width
        ClockWindow.height fb = .ok fb' ∧ Restored c font window.area fb fb' := by
  intro hall
  obtain ⟨font, hparse, -⟩ := parseFont_eq
  obtain ⟨fb, hfb, hnarrow, hwidth, hheight, hpixel, hencode⟩ : ∃ fb,
      FrameBuffer.fromLayout lowScreen = .ok (.ok fb) ∧ fb.Narrow ∧ fb.width = 300 ∧
        fb.height = 100 ∧ fb.pixel (40, 96) = 0x1E2029 ∧ fb.encode ⟨0, 0, 0⟩ = .ok 0 :=
    ⟨_, rfl, ⟨by decide, by decide, by decide⟩, rfl, rfl, by decide, rfl⟩
  have hreaches : (ClockWindow.placeCentered 300 100).Reaches fb.width fb.height := by
    rw [hwidth, hheight]
    exact .placed
  have hsized : Sized { new with cols := 37, rows := 6 } :=
    ⟨by decide, by decide, by decide, List.length_replicate⟩
  have hb := backed_of_fromLayout hfb hnarrow hparse hsized
  obtain ⟨fb₁, hrepaint, hrestored⟩ := hall lowScreen fb font { new with cols := 37, rows := 6 }
    (.placeCentered 300 100) hfb hnarrow hparse hsized.length hsized.cols_pos hsized.rows_pos
    hsized.area_le hreaches
  obtain ⟨fb₂, hrepaint₂, hiff⟩ := hb.restored_iff (x := 40) (y := 0)
    (w := ClockWindow.width) (h := ClockWindow.height) (by decide)
  cases hrepaint.symm.trans hrepaint₂
  have hstrip : ((40, 96) : Nat × Nat) ∈ fb.area :=
    ⟨by rw [hwidth]; decide, by rw [hheight]; decide⟩
  obtain hfits | hbackground := hiff.mp hrestored
  · have hpoint : ((40, 179) : Nat × Nat) ∈ fb.area := hfits ⟨by decide, by decide⟩
    have hlow : 179 < fb.height := hpoint.2
    omega
  · have hout : ((40, 96) : Nat × Nat) ∉ gridArea { new with cols := 37, rows := 6 } :=
      fun hgrid => absurd hgrid.2 (by decide)
    have hshows := hbackground (40, 96) ⟨by decide, by decide⟩ hstrip hout
    have hblack := ((hb.showsAt_iff hencode hstrip).mp hshows).2 hout
    rw [hpixel] at hblack
    exact absurd hblack (by decide)

end FerricK
