import FerricK.Framebuffer.Drawn

namespace FerricK

open Rust Raster

def barColors : List Rgb :=
  [⟨255, 255, 255⟩, ⟨255, 255, 0⟩, ⟨0, 255, 255⟩, ⟨0, 255, 0⟩, ⟨255, 0, 255⟩, ⟨255, 0, 0⟩,
    ⟨0, 0, 255⟩]

/-- The quotients are cast to `u32`. -/
def barBounds (index width : Nat) : Rust (Nat × Nat) := do
  let start ← udiv (← umul 64 width index) barColors.length
  let stop ← udiv (← umul 64 width (← uadd 64 index 1)) barColors.length
  return (start % 2 ^ 32, stop % 2 ^ 32)

namespace FrameBuffer

/-- The loop of `drawColorBars`, which returns at the first bar that is refused. -/
def drawBars (width height : Nat) : List (Rgb × Nat) → FrameBuffer → Rust (Bool × FrameBuffer)
  | [], fb => return (true, fb)
  | (color, index) :: bars, fb => do
    let (start, stop) ← barBounds index width
    match ← fb.fillRect start 0 (← usub stop start) height color with
    | (.error _, fb) => return (false, fb)
    | (.ok (), fb) => drawBars width height bars fb

def drawColorBars (fb : FrameBuffer) : Rust (Bool × FrameBuffer) :=
  drawBars fb.width fb.height barColors.zipIdx fb

def sampleYs (height : Nat) : Rust (List Nat) := do
  [height / 4, height / 2, (← umul 32 height 3) / 4].mapM fun y => do
    return min y (← usub height 1)

/-- The two loops of `verifyColorBars`, which return at the first pixel that differs. -/
def verifyBar (fb : FrameBuffer) (centerX : Nat) (color : Rgb) : List Nat → Rust Bool
  | [] => return true
  | y :: ys => do
    if (← fb.readRawPixel centerX y) ≠ some (← fb.encode color) then return false
    else fb.verifyBar centerX color ys

def verifyBars (fb : FrameBuffer) (width : Nat) (ys : List Nat) : List (Rgb × Nat) → Rust Bool
  | [] => return true
  | (color, index) :: bars => do
    let (start, stop) ← barBounds index width
    let centerX ← uadd 32 start ((← usub stop start) / 2)
    if ← fb.verifyBar centerX color ys then fb.verifyBars width ys bars else return false

def verifyColorBars (fb : FrameBuffer) : Rust Bool := do
  fb.verifyBars fb.width (← sampleYs fb.height) barColors.zipIdx

def Sampled (fb : FrameBuffer) (index : Nat) (p : Nat × Nat) : Prop :=
  ∃ start stop ys, barBounds index fb.width = .ok (start, stop) ∧
    sampleYs fb.height = .ok ys ∧ p.1 = start + (stop - start) / 2 ∧ p.2 ∈ ys

/-- The bars cover the width one after the other, drawing them succeeds if there is a column for
each, and verifying finds them, and only them, at the samples. -/
structure BarsSound (fb : FrameBuffer) : Prop where
  partition : ∃ edge : Nat → Nat, edge 0 = 0 ∧ edge 7 = fb.width ∧
    ∀ i < 7, edge i ≤ edge (i + 1) ∧ barBounds i fb.width = .ok (edge i, edge (i + 1))
  draw : ∃ r fb', fb.drawColorBars = .ok (r, fb') ∧ (r = true ↔ 7 ≤ fb.width) ∧
    (r = true → fb'.verifyColorBars = .ok true ∧
      ∀ i color start stop, barColors[i]? = some color → barBounds i fb.width = .ok (start, stop) →
        ∃ word, fb.encode color = .ok word ∧
          ∀ p ∈ fb.area, start ≤ p.1 → p.1 < stop → fb'.readRawPixel p.1 p.2 = .ok (some word))
  verify : ∀ i color word p, barColors[i]? = some color → fb.encode color = .ok word →
    fb.Sampled i p → fb.readRawPixel p.1 p.2 ≠ .ok (some word) → fb.verifyColorBars = .ok false

variable {fb fb' : FrameBuffer} {layout : FrameLayout} {width height i x word : Nat} {color : Rgb}

def barEdge (width i : Nat) : Nat := width * i / 7

theorem barEdge_le (width : Nat) (h : i ≤ 7) : barEdge width i ≤ width := by
  rw [barEdge]
  exact Nat.div_le_of_le_mul (by rw [Nat.mul_comm 7]; exact Nat.mul_le_mul_left _ h)

theorem barEdge_mono (width : Nat) (i : Nat) : barEdge width i ≤ barEdge width (i + 1) :=
  Nat.div_le_div_right (Nat.mul_le_mul_left _ (Nat.le_succ i))

theorem barBounds_eq (hwidth : width < 2 ^ 32) (hi : i < 7) :
    barBounds i width = .ok (barEdge width i, barEdge width (i + 1)) := by
  have hstart := barEdge_le width (show i ≤ 7 by omega)
  have hstop := barEdge_le width (show i + 1 ≤ 7 by omega)
  have hmul : width * (i + 1) ≤ width * 7 := Nat.mul_le_mul_left _ (by omega)
  have hmul' : width * i ≤ width * (i + 1) := Nat.mul_le_mul_left _ (by omega)
  rw [barBounds, umul_of_lt (by omega), ok_bind, udiv_of_pos (by decide), ok_bind,
    uadd_of_lt (by omega), ok_bind, umul_of_lt (by omega), ok_bind, udiv_of_pos (by decide),
    ok_bind, pure_eq_ok]
  rw [barEdge] at hstart hstop
  have hlength : barColors.length = 7 := rfl
  rw [hlength, Nat.mod_eq_of_lt (by omega), Nat.mod_eq_of_lt (by omega), barEdge, barEdge]

def barAt (width x : Nat) : Nat := (7 * x + 6) / width

theorem barEdge_le_iff (hwidth : 0 < width) : barEdge width i ≤ x ↔ i ≤ barAt width x := by
  rw [barEdge, barAt, Nat.le_div_iff_mul_le hwidth, Nat.div_le_iff_le_mul_add_pred (by omega),
    Nat.mul_comm i]

theorem barAt_eq_iff (hwidth : 0 < width) :
    barEdge width i ≤ x ∧ x < barEdge width (i + 1) ↔ barAt width x = i := by
  rw [barEdge_le_iff hwidth, ← not_le, barEdge_le_iff hwidth]
  omega

theorem barEdge_lt (hwidth : 7 ≤ width) (i : Nat) : barEdge width i < barEdge width (i + 1) := by
  have hnext : width * i + 7 ≤ width * (i + 1) := by
    rw [Nat.mul_succ]
    omega
  simp only [barEdge]
  omega

def barWord (fb : FrameBuffer) (p : Nat × Nat) : Nat :=
  match fb.encode (barColors.getD (barAt fb.width p.1) ⟨0, 0, 0⟩) with
  | .ok word => word
  | .error _ => 0

def barRect (fb : FrameBuffer) (i : Nat) : Set (Nat × Nat) :=
  rect (barEdge fb.width i) 0 (barEdge fb.width (i + 1) - barEdge fb.width i) fb.height

theorem mem_barRect {p : Nat × Nat} (hwidth : 0 < fb.width) :
    p ∈ fb.barRect i ↔ barAt fb.width p.1 = i ∧ p.2 < fb.height := by
  have hmono := barEdge_mono fb.width i
  rw [← barAt_eq_iff hwidth]
  simp only [barRect, rect, Set.mem_ofPred_eq]
  omega

theorem barWord_eq {p : Nat × Nat} (hcolor : barColors[i]? = some color)
    (hword : fb.encode color = .ok word) (hp : barAt fb.width p.1 = i) : fb.barWord p = word := by
  rw [barWord, hp, List.getD_eq_getElem?_getD, hcolor, Option.getD_some, hword]

theorem index_lt (hcolor : barColors[i]? = some color) : i < 7 :=
  (List.getElem?_eq_some_iff.mp hcolor).1

theorem Ready.fill_bar (hfb : Ready fb) (hpacked : Packed fb) (hwidth : 7 ≤ fb.width)
    (hheight : 1 ≤ fb.height) (hcolor : barColors[i]? = some color) : ∃ fb',
      fb.fillRect (barEdge fb.width i) 0 (barEdge fb.width (i + 1) - barEdge fb.width i) fb.height
        color = .ok (.ok (), fb') ∧ Drawn (fb.barRect i) fb.barWord fb fb' := by
  have hlt := barEdge_lt hwidth i
  have hle := barEdge_le fb.width (show i + 1 ≤ 7 from index_lt hcolor)
  obtain ⟨word, fb', hword, hfill, hdrawn⟩ := hfb.fillRect_drawn hpacked
    (x := barEdge fb.width i) (y := 0) (w := barEdge fb.width (i + 1) - barEdge fb.width i)
    (h := fb.height) (by omega) color
  refine ⟨fb', hfill, hdrawn.repaint fun p hp => ?_⟩
  exact (barWord_eq hcolor hword ((mem_barRect (by omega)).mp hp).1).symm

theorem Ready.drawBars_drawn (hfb : Ready fb) (hpacked : Packed fb) (hwidth : 7 ≤ fb.width)
    (hheight : 1 ≤ fb.height) {bars : List (Rgb × Nat)}
    (hbars : ∀ bar ∈ bars, barColors[bar.2]? = some bar.1) {fb₁ : FrameBuffer}
    (h₁ : Redrawn fb fb₁) : ∃ fb₂, drawBars fb.width fb.height bars fb₁ = .ok (true, fb₂) ∧
      Drawn {p | ∃ bar ∈ bars, p ∈ fb.barRect bar.2} fb.barWord fb₁ fb₂ := by
  induction bars generalizing fb₁ with
  | nil => exact ⟨fb₁, rfl, (Drawn.refl _ fb₁).congr (by simp)⟩
  | cons bar bars ih =>
    obtain ⟨color, i⟩ := bar
    obtain ⟨hcolor, hbars⟩ := List.forall_mem_cons.mp hbars
    obtain ⟨fb₂, hfill, h₂⟩ : ∃ fb₂, fb₁.fillRect (barEdge fb.width i) 0
        (barEdge fb.width (i + 1) - barEdge fb.width i) fb.height color = .ok (.ok (), fb₂) ∧
          Drawn (fb.barRect i) fb.barWord fb₁ fb₂ := by
      have hready := h₁.ready hfb
      have hpacked₁ := h₁.packed hpacked
      obtain ⟨surface, rfl⟩ := h₁
      exact hready.fill_bar hpacked₁ hwidth hheight hcolor
    obtain ⟨fb₃, hrest, h₃⟩ := ih hbars (h₁.trans h₂.on.redrawn)
    refine ⟨fb₃, ?_, (h₂.trans h₃).congr (by simp)⟩
    rw [drawBars, barBounds_eq hfb.valid.width_lt (index_lt hcolor), ok_bind]
    dsimp only
    rw [usub_of_le (barEdge_mono fb.width i), ok_bind, hfill, ok_bind]
    exact hrest

/-- With fewer columns than bars the first bar is empty. -/
theorem Valid.drawBars_narrow (hfb : Valid fb) (hwidth : fb.width < 7) {bars : List (Rgb × Nat)} :
    drawBars fb.width fb.height ((color, 0) :: bars) fb = .ok (false, fb) := by
  have hedge : barEdge fb.width 1 - barEdge fb.width 0 = 0 := by
    simp only [barEdge]
    omega
  rw [drawBars, barBounds_eq hfb.width_lt (by omega), ok_bind]
  dsimp only
  rw [usub_of_le (barEdge_mono fb.width 0), ok_bind, hedge, fillRect, if_pos (.inl rfl), pure_eq_ok,
    ok_bind]
  rfl

theorem Valid.read_ok (hfb : Valid fb) (hpacked : Packed fb) (x y : Nat) :
    ∃ o, fb.readRawPixel x y = .ok o := by
  by_cases hp : (x, y) ∈ fb.area
  · exact ⟨_, hfb.readRawPixel_eq hpacked hp⟩
  · have hout := not_not.mp (mem_area.not.mp hp)
    exact ⟨none, by rw [readRawPixel, if_pos hout, pure_eq_ok]⟩

theorem Valid.verifyBar_iff (hfb : Valid fb) (hpacked : Packed fb)
    (hword : fb.encode color = .ok word) (x : Nat) (ys : List Nat) :
    ∃ b, fb.verifyBar x color ys = .ok b ∧
      (b = true ↔ ∀ y ∈ ys, fb.readRawPixel x y = .ok (some word)) := by
  induction ys with
  | nil => exact ⟨true, rfl, by simp⟩
  | cons y ys ih =>
    obtain ⟨o, ho⟩ := hfb.read_ok hpacked x y
    rw [verifyBar, ho, ok_bind, hword, ok_bind, List.forall_mem_cons, ho]
    by_cases heq : o = some word
    · obtain ⟨b, hb, hiff⟩ := ih
      exact ⟨b, by rw [if_neg (not_not.mpr heq), hb], by simp [heq, hiff]⟩
    · exact ⟨false, by rw [if_pos heq, pure_eq_ok], by simp [heq]⟩

def barCenter (width i : Nat) : Nat :=
  barEdge width i + (barEdge width (i + 1) - barEdge width i) / 2

theorem Ready.verifyBars_iff (hfb : Ready fb) (hpacked : Packed fb) (ys : List Nat)
    {bars : List (Rgb × Nat)} (hbars : ∀ bar ∈ bars, bar.2 < 7) :
    ∃ b, fb.verifyBars fb.width ys bars = .ok b ∧ (b = true ↔ ∀ bar ∈ bars, ∀ word,
      fb.encode bar.1 = .ok word → ∀ y ∈ ys,
        fb.readRawPixel (barCenter fb.width bar.2) y = .ok (some word)) := by
  induction bars with
  | nil => exact ⟨true, rfl, by simp⟩
  | cons bar bars ih =>
    obtain ⟨color, i⟩ := bar
    obtain ⟨hi, hbars⟩ := List.forall_mem_cons.mp hbars
    obtain ⟨word, hword⟩ := hfb.encode_ok color
    obtain ⟨b, hb, hiff⟩ := hfb.valid.verifyBar_iff hpacked hword (barCenter fb.width i) ys
    have hlt := hfb.valid.width_lt
    have hle := barEdge_le fb.width (show i + 1 ≤ 7 from hi)
    have hmono := barEdge_mono fb.width i
    have hcenter : uadd 32 (barEdge fb.width i)
        ((barEdge fb.width (i + 1) - barEdge fb.width i) / 2) = .ok (barCenter fb.width i) :=
      uadd_of_lt (by omega)
    rw [verifyBars, barBounds_eq hlt hi, ok_bind]
    dsimp only
    rw [usub_of_le hmono, ok_bind, hcenter, ok_bind, hb, ok_bind, List.forall_mem_cons]
    have hfirst : (∀ word, fb.encode color = .ok word → ∀ y ∈ ys,
        fb.readRawPixel (barCenter fb.width i) y = .ok (some word)) ↔ b = true := by
      rw [hiff, hword]
      simp
    rw [hfirst]
    cases b with
    | true =>
      obtain ⟨b', hb', hiff'⟩ := ih hbars
      exact ⟨b', hb', by simp [hiff']⟩
    | false => exact ⟨false, rfl, by simp⟩

theorem sampleYs_eq (hheight : 1 ≤ height) (hmul : height * 3 < 2 ^ 32) :
    sampleYs height = .ok ([height / 4, height / 2, height * 3 / 4].map (min · (height - 1))) := by
  rw [sampleYs, umul_of_lt hmul, ok_bind]
  simp [usub_of_le hheight]

theorem Ready.verifyColorBars_iff (hfb : Ready fb) (hpacked : Packed fb) {ys : List Nat}
    (hys : sampleYs fb.height = .ok ys) : ∃ b, fb.verifyColorBars = .ok b ∧
      (b = true ↔ ∀ i color word, barColors[i]? = some color → fb.encode color = .ok word →
        ∀ y ∈ ys, fb.readRawPixel (barCenter fb.width i) y = .ok (some word)) := by
  have hbars : ∀ bar ∈ barColors.zipIdx, bar.2 < 7 := by decide
  obtain ⟨b, hb, hiff⟩ := hfb.verifyBars_iff hpacked ys hbars
  refine ⟨b, by rw [verifyColorBars, hys, ok_bind, hb], hiff.trans ?_⟩
  constructor
  · intro hall i color word hcolor hword
    exact hall (color, i) (List.mem_zipIdx_iff_getElem?.mpr hcolor) word hword
  · intro hall bar hbar word hword
    exact hall bar.2 bar.1 word (List.mem_zipIdx_iff_getElem?.mp hbar) hword

theorem barCenter_mem (hwidth : 7 ≤ width) (i : Nat) :
    barEdge width i ≤ barCenter width i ∧ barCenter width i < barEdge width (i + 1) := by
  have hlt := barEdge_lt hwidth i
  rw [barCenter]
  omega

theorem Ready.drawColorBars_true (hfb : Ready fb) (hpacked : Packed fb) (hwidth : 7 ≤ fb.width)
    (hheight : 1 ≤ fb.height) (hmul : fb.height * 3 < 2 ^ 32) : ∃ fb',
      fb.drawColorBars = .ok (true, fb') ∧ fb'.verifyColorBars = .ok true ∧
      ∀ i color start stop, barColors[i]? = some color → barBounds i fb.width = .ok (start, stop) →
        ∃ word, fb.encode color = .ok word ∧ ∀ p ∈ fb.area, start ≤ p.1 → p.1 < stop →
          fb'.readRawPixel p.1 p.2 = .ok (some word) := by
  obtain ⟨fb', hfb', hdrawn⟩ := hfb.drawBars_drawn hpacked hwidth hheight
    (fun bar hbar => List.mem_zipIdx_iff_getElem?.mp hbar) (Redrawn.refl fb)
  have hread : ∀ {i color word} {p : Nat × Nat}, barColors[i]? = some color →
      fb.encode color = .ok word → p ∈ fb.area → barEdge fb.width i ≤ p.1 →
      p.1 < barEdge fb.width (i + 1) → fb'.readRawPixel p.1 p.2 = .ok (some word) := by
    intro i color word p hcolor hword hp hstart hstop
    have hat := (barAt_eq_iff (by omega)).mp ⟨hstart, hstop⟩
    have hmem : p ∈ {p | ∃ bar ∈ barColors.zipIdx, p ∈ fb.barRect bar.2} :=
      ⟨(color, i), List.mem_zipIdx_iff_getElem?.mpr hcolor,
        (mem_barRect (by omega)).mpr ⟨hat, hp.2⟩⟩
    rw [hdrawn.read hfb.valid hpacked hp hmem, barWord_eq hcolor hword hat]
  refine ⟨fb', hfb', ?_, ?_⟩
  · have hredrawn := hdrawn.on.redrawn
    have hready := hredrawn.ready hfb
    have hpacked' := hredrawn.packed hpacked
    obtain ⟨surface, rfl⟩ := hredrawn
    obtain ⟨b, hb, hiff⟩ := hready.verifyColorBars_iff hpacked' (sampleYs_eq hheight hmul)
    rw [hb, hiff.mpr]
    intro i color word hcolor hword y hy
    obtain ⟨hstart, hstop⟩ := barCenter_mem hwidth i
    obtain ⟨sample, -, rfl⟩ := List.mem_map.mp hy
    have hle := barEdge_le fb.width (show i + 1 ≤ 7 from index_lt hcolor)
    have hp : (barCenter fb.width i, min sample (fb.height - 1)) ∈ fb.area :=
      ⟨show barCenter fb.width i < fb.width by omega,
        show min sample (fb.height - 1) < fb.height by omega⟩
    exact hread hcolor hword hp hstart hstop
  · intro i color start stop hcolor hbounds
    rw [barBounds_eq hfb.valid.width_lt (index_lt hcolor)] at hbounds
    cases hbounds
    obtain ⟨word, hword⟩ := hfb.encode_ok color
    exact ⟨word, hword, fun p hp => hread hcolor hword hp⟩

theorem bars_sound (hlayout : fromLayout layout = .ok (.ok fb)) (hnarrow : Narrow fb)
    (hwidth : 1 ≤ fb.width) (hheight : 1 ≤ fb.height) (hmul : fb.height * 3 < 2 ^ 32) :
    BarsSound fb := by
  have hfb : Ready fb := ⟨Valid.of_fromLayout hlayout, hnarrow⟩
  have hpacked := Packed.of_fromLayout hlayout
  constructor
  · refine ⟨barEdge fb.width, Nat.zero_div 7, Nat.mul_div_cancel _ (by decide), fun i hi => ?_⟩
    exact ⟨barEdge_mono fb.width i, barBounds_eq hfb.valid.width_lt hi⟩
  · by_cases hbars : 7 ≤ fb.width
    · obtain ⟨fb', hdraw, hrest⟩ := hfb.drawColorBars_true hpacked hbars hheight hmul
      exact ⟨true, fb', hdraw, by simp [hbars], fun _ => hrest⟩
    · exact ⟨false, fb, hfb.valid.drawBars_narrow (by omega), by simp [hbars], by simp⟩
  · rintro i color word p hcolor hword ⟨start, stop, ys, hbounds, hys, hx, hy⟩ hne
    rw [barBounds_eq hfb.valid.width_lt (index_lt hcolor)] at hbounds
    cases hbounds
    obtain ⟨b, hb, hiff⟩ := hfb.verifyColorBars_iff hpacked hys
    rw [hb]
    cases b with
    | false => rfl
    | true => exact absurd (hx ▸ hiff.mp rfl i color word hcolor hword p.2 hy) hne

theorem bars_sound_screen :
    ∃ fb, fromLayout (FrameLayout.screen 14 8 56) = .ok (.ok fb) ∧ BarsSound fb := by
  have hlayout : fromLayout (FrameLayout.screen 14 8 56) = .ok (.ok _) := rfl
  exact ⟨_, hlayout, bars_sound hlayout ⟨by decide, by decide, by decide⟩ (by decide) (by decide)
    (by decide)⟩

end FrameBuffer

end FerricK
