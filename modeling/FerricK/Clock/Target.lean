import FerricK.Framebuffer.Bounds

namespace FerricK

open Rust

structure Pixel where
  x : Int32
  y : Int32
  color : Rgb
  deriving DecidableEq

namespace FrameBuffer

/-- The `?` on `write_pixel` ends the loop. -/
def drawIter (fb : FrameBuffer) : List Pixel → Rust (Except FramebufferError Unit × FrameBuffer)
  | [] => return (.ok (), fb)
  | pixel :: pixels =>
    if pixel.x < 0 ∨ pixel.y < 0 then drawIter fb pixels
    else do
      match ← fb.writePixel pixel.x.toUInt32.toNat pixel.y.toUInt32.toNat pixel.color with
      | (.error e, fb) => return (.error e, fb)
      | (.ok (), fb) => drawIter fb pixels

def OnSurface (fb : FrameBuffer) (pixel : Pixel) : Prop :=
  (0 ≤ pixel.x.toInt ∧ pixel.x.toInt < fb.width) ∧ 0 ≤ pixel.y.toInt ∧ pixel.y.toInt < fb.height

instance (fb : FrameBuffer) (pixel : Pixel) : Decidable (fb.OnSurface pixel) :=
  inferInstanceAs (Decidable (_ ∧ _))

def writeAll (pixels : List Pixel) (fb : FrameBuffer) : Rust FrameBuffer :=
  forEach pixels (fun pixel fb => do
    fb.writeUnchecked pixel.x.toInt.toNat pixel.y.toInt.toNat (← fb.encode pixel.color)) fb

/-- What a target owes its shapes: the pixels on the surface are written, the others dropped. -/
def Clips (fb : FrameBuffer) (pixels : List Pixel) : Prop :=
  ∃ fb', fb.drawIter pixels = .ok (.ok (), fb') ∧
    writeAll (pixels.filter fb.OnSurface) fb = .ok fb'

variable {fb fb' : FrameBuffer} {pixel : Pixel} {pixels : List Pixel} {layout : FrameLayout}

theorem toNat_toUInt32 {a : Int32} (h : ¬ a < 0) : a.toUInt32.toNat = a.toInt.toNat := by
  have hnonneg : 0 ≤ a := Int32.not_lt.mp h
  rw [Int32.toNat_toUInt32_of_le hnonneg, Int32.toInt_eq_toNatClampNeg hnonneg, Int.toNat_natCast]

theorem nonneg_iff {a : Int32} : ¬ a < 0 ↔ 0 ≤ a.toInt := by
  rw [Int32.not_lt, Int32.le_iff_toInt_le]
  rfl

theorem drawIter_negative (h : pixel.x < 0 ∨ pixel.y < 0) :
    fb.drawIter (pixel :: pixels) = fb.drawIter pixels := by
  rw [drawIter, if_pos h]

theorem drawIter_beyond (hx : 0 ≤ pixel.x.toInt) (hy : 0 ≤ pixel.y.toInt)
    (h : ¬ fb.OnSurface pixel) :
    fb.drawIter (pixel :: pixels) = .ok (.error .outOfBounds, fb) := by
  have hx' := nonneg_iff.mpr hx
  have hy' := nonneg_iff.mpr hy
  have hout : pixel.x.toInt.toNat ≥ fb.width ∨ pixel.y.toInt.toNat ≥ fb.height := by
    unfold OnSurface at h
    omega
  have hneg : ¬(pixel.x < 0 ∨ pixel.y < 0) := not_or.mpr ⟨hx', hy'⟩
  rw [drawIter, if_neg hneg, toNat_toUInt32 hx', toNat_toUInt32 hy', writePixel, if_pos hout]
  rfl

theorem Ready.drawIter_inside (hfb : Ready fb) (hpacked : Packed fb) (h : fb.OnSurface pixel) :
    ∃ fb', Redrawn fb fb' ∧ (∀ pixels, fb.drawIter (pixel :: pixels) = fb'.drawIter pixels) ∧
      ∀ pixels, writeAll (pixel :: pixels) fb = writeAll pixels fb' := by
  obtain ⟨⟨hx, hwidth⟩, hy, hheight⟩ := h
  have hx' := nonneg_iff.mpr hx
  have hy' := nonneg_iff.mpr hy
  have harea : (pixel.x.toInt.toNat, pixel.y.toInt.toNat) ∈ fb.area := by
    constructor <;> simp only <;> omega
  obtain ⟨word, hword⟩ := hfb.encode_ok pixel.color
  obtain ⟨fb', hwrite, hon⟩ := hfb.valid.writeUnchecked_drawnOn hpacked harea word
  refine ⟨fb', hon.redrawn, fun pixels => ?_, fun pixels => ?_⟩
  · have hneg : ¬(pixel.x < 0 ∨ pixel.y < 0) := not_or.mpr ⟨hx', hy'⟩
    rw [drawIter, if_neg hneg, toNat_toUInt32 hx', toNat_toUInt32 hy', writePixel,
      if_neg (mem_area.mp harea), hword, ok_bind, hwrite]
    rfl
  · rw [writeAll, forEach_cons, hword, ok_bind, hwrite, ok_bind]
    rfl

theorem onSurface_redrawn (h : Redrawn fb fb') (pixel : Pixel) :
    fb'.OnSurface pixel ↔ fb.OnSurface pixel := by
  obtain ⟨surface, rfl⟩ := h
  rfl

theorem clips_negative (h : ¬(0 ≤ pixel.x.toInt ∧ 0 ≤ pixel.y.toInt)) :
    Clips fb (pixel :: pixels) ↔ Clips fb pixels := by
  have hneg : pixel.x < 0 ∨ pixel.y < 0 := by
    rw [← nonneg_iff, ← nonneg_iff] at h
    exact not_and_or.mp h |>.imp not_not.mp not_not.mp
  have hoff : ¬ fb.OnSurface pixel := fun hon => h ⟨hon.1.1, hon.2.1⟩
  rw [Clips, Clips, drawIter_negative hneg, List.filter_cons_of_neg (by simpa using hoff)]

theorem not_clips_beyond (hx : 0 ≤ pixel.x.toInt) (hy : 0 ≤ pixel.y.toInt)
    (h : ¬ fb.OnSurface pixel) : ¬ Clips fb (pixel :: pixels) := by
  rintro ⟨fb', hdraw, -⟩
  rw [drawIter_beyond hx hy h] at hdraw
  exact nomatch hdraw

theorem Ready.clips_inside (hfb : Ready fb) (hpacked : Packed fb) (h : fb.OnSurface pixel)
    (pixels : List Pixel) :
    ∃ fb', Redrawn fb fb' ∧ (Clips fb (pixel :: pixels) ↔ Clips fb' pixels) := by
  obtain ⟨fb', hr, hdraw, hwrite⟩ := hfb.drawIter_inside hpacked h
  have hsame : pixels.filter fb'.OnSurface = pixels.filter fb.OnSurface := by
    simp only [onSurface_redrawn hr]
  refine ⟨fb', hr, ?_⟩
  rw [Clips, Clips, hdraw, List.filter_cons_of_pos (by simpa using h), hwrite, hsame]

theorem Ready.clips_iff (hfb : Ready fb) (hpacked : Packed fb) : Clips fb pixels ↔
    ∀ pixel ∈ pixels, 0 ≤ pixel.x.toInt → 0 ≤ pixel.y.toInt → fb.OnSurface pixel := by
  induction pixels generalizing fb with
  | nil => exact iff_of_true ⟨fb, rfl, rfl⟩ (by simp)
  | cons pixel pixels ih =>
    rw [List.forall_mem_cons]
    by_cases hnonneg : 0 ≤ pixel.x.toInt ∧ 0 ≤ pixel.y.toInt
    · by_cases hon : fb.OnSurface pixel
      · obtain ⟨fb', hr, hclips⟩ := hfb.clips_inside hpacked hon pixels
        rw [hclips, ih (hr.ready hfb) (hr.packed hpacked)]
        simp only [onSurface_redrawn hr]
        exact ⟨fun hrest => ⟨fun _ _ => hon, hrest⟩, fun hall => hall.2⟩
      · refine iff_of_false (not_clips_beyond hnonneg.1 hnonneg.2 hon) fun hall => ?_
        exact hon (hall.1 hnonneg.1 hnonneg.2)
    · rw [clips_negative hnonneg, ih hfb hpacked]
      exact ⟨fun hrest => ⟨fun hx hy => absurd ⟨hx, hy⟩ hnonneg, hrest⟩, fun hall => hall.2⟩

theorem draw_iter_clips_iff (hlayout : fromLayout layout = .ok (.ok fb)) (hnarrow : Narrow fb)
    (pixels : List Pixel) : Clips fb pixels ↔ ∀ pixel ∈ pixels, 0 ≤ pixel.x.toInt →
      0 ≤ pixel.y.toInt → pixel.x.toInt < fb.width ∧ pixel.y.toInt < fb.height := by
  have hfb : Ready fb := ⟨Valid.of_fromLayout hlayout, hnarrow⟩
  rw [hfb.clips_iff (Packed.of_fromLayout hlayout)]
  refine forall₂_congr fun pixel _ => ?_
  unfold OnSurface
  grind

theorem draw_iter_clips_iff_screen : ∃ fb,
    fromLayout (FrameLayout.screen 8 4 40) = .ok (.ok fb) ∧
      Clips fb [⟨-1, 2, ⟨0xFF, 0, 0⟩⟩, ⟨7, 3, ⟨0, 0xFF, 0⟩⟩] := by
  obtain ⟨fb, hlayout, hnarrow, hwidth, hheight⟩ : ∃ fb,
      fromLayout (FrameLayout.screen 8 4 40) = .ok (.ok fb) ∧ Narrow fb ∧ fb.width = 8 ∧
        fb.height = 4 := ⟨_, rfl, ⟨by decide, by decide, by decide⟩, rfl, rfl⟩
  refine ⟨fb, hlayout, (draw_iter_clips_iff hlayout hnarrow _).mpr ?_⟩
  rw [hwidth, hheight]
  decide

/-- A pixel right of the surface keeps the next one, in its corner, from being drawn. -/
theorem draw_iter_aborts : ¬ ∀ (layout : FrameLayout) (fb : FrameBuffer) (pixels : List Pixel),
    fromLayout layout = .ok (.ok fb) → Narrow fb → Clips fb pixels := by
  intro hall
  obtain ⟨fb, hlayout, hnarrow, hwidth⟩ : ∃ fb,
      fromLayout (FrameLayout.screen 8 4 40) = .ok (.ok fb) ∧ Narrow fb ∧ fb.width = 8 :=
    ⟨_, rfl, ⟨by decide, by decide, by decide⟩, rfl⟩
  refine absurd (hall _ fb [⟨8, 0, ⟨0xFF, 0, 0⟩⟩, ⟨0, 0, ⟨0xFF, 0, 0⟩⟩] hlayout hnarrow)
    (not_clips_beyond (by decide) (by decide) ?_)
  unfold OnSurface
  rw [hwidth]
  exact fun hon => absurd hon.1.2 (by decide)

end FrameBuffer

end FerricK
