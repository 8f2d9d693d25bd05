import FerricK.Framebuffer.Colors
import FerricK.Framebuffer.Drawn
import FerricK.Slint.Pixel

namespace FerricK

open Rust

structure FbLayout where
  width : Nat
  height : Nat
  bytesPerPixel : Nat
  redSize : Nat
  redShift : Nat
  greenSize : Nat
  greenShift : Nat
  blueSize : Nat
  blueShift : Nat
  deriving DecidableEq, Repr

namespace FrameBuffer

def channelSize (fb : FrameBuffer) : Nat → Nat
  | 0 => fb.red.size
  | 1 => fb.green.size
  | _ => fb.blue.size

def channelShift (fb : FrameBuffer) : Nat → Nat
  | 0 => fb.red.shift
  | 1 => fb.green.shift
  | _ => fb.blue.shift

def capture (fb : FrameBuffer) : FbLayout where
  width := fb.width
  height := fb.height
  bytesPerPixel := fb.bytesPerPixel
  redSize := fb.channelSize 0
  redShift := fb.channelShift 0
  greenSize := fb.channelSize 1
  greenShift := fb.channelShift 1
  blueSize := fb.channelSize 2
  blueShift := fb.channelShift 2

end FrameBuffer

def debugAssert (c : Bool) (msg : String) : Rust Unit :=
  if c then .ok () else .error (.expect msg)

namespace FbPixel

def encode (p : FbPixel) (layout : FbLayout) : Rust Nat := do
  let maxR ← usub (← ushl 64 1 layout.redSize) 1
  let maxG ← usub (← ushl 64 1 layout.greenSize) 1
  let maxB ← usub (← ushl 64 1 layout.blueSize) 1
  let r ← ushl 64 ((← umul 64 p.red.toNat maxR) / 255) layout.redShift
  let g ← ushl 64 ((← umul 64 p.green.toNat maxG) / 255) layout.greenShift
  let b ← ushl 64 ((← umul 64 p.blue.toNat maxB) / 255) layout.blueShift
  let limit ← ushl 64 1 (← umul 64 layout.bytesPerPixel 8)
  debugAssert (r ||| g ||| b < limit) "encoded pixel does not fit the framebuffer word"
  return r ||| g ||| b

def rgb (p : FbPixel) : Rgb := ⟨p.red, p.green, p.blue⟩

end FbPixel

namespace FrameBuffer

def blitRow (layout : FbLayout) (y : Nat) (row : List FbPixel) (fb : FrameBuffer) :
    Rust FrameBuffer :=
  forEach row.zipIdx (fun (pixel, x) fb => do
    let (_, fb) ← fb.writeWord (x % 2 ^ 32) y (← pixel.encode layout)
    return fb) fb

def rowOf (buffer : List FbPixel) (width y w : Nat) : Rust (List FbPixel) := do
  slice buffer (← umul 32 y width) (← uadd 32 (← umul 32 y width) w)

/-- `captured` is `FB_LAYOUT`, and `fb` the framebuffer behind the lock. -/
def blitToFramebuffer (captured : Option FbLayout) (fb : FrameBuffer) (buffer : List FbPixel)
    (width height : Nat) : Rust FrameBuffer := do
  let layout ← expect "framebuffer layout captured before blit" captured
  let w := min width layout.width
  let h := min height layout.height
  forRange h (fun y fb => do
    fb.blitRow layout y (← rowOf buffer width y w)) fb

def drawPixels (fb : FrameBuffer) (buffer : List FbPixel) (width : Nat)
    (order : List (Nat × Nat)) : Rust FrameBuffer :=
  forEach order (fun p fb => do
    let pixel ← index buffer (p.2 * width + p.1)
    let (_, fb) ← fb.writePixel p.1 p.2 pixel.rgb
    return fb) fb

def clip (fb : FrameBuffer) (width height : Nat) : Set (Nat × Nat) :=
  {p | p.1 < min width fb.width ∧ p.2 < min height fb.height}

def BlitAgrees (fb : FrameBuffer) (buffer : List FbPixel) (width height : Nat) : Prop :=
  ∃ fb', blitToFramebuffer (some fb.capture) fb buffer width height = .ok fb' ∧
    (∀ order, (∀ p, p ∈ order ↔ p ∈ fb.clip width height) →
      fb.drawPixels buffer width order = .ok fb') ∧
    ∀ a ∉ fb.bytesOf (fb.clip width height), fb'.surface a = fb.surface a

variable {fb fb' : FrameBuffer} {layout : FrameLayout} {m : ChannelMask} {buffer : List FbPixel}
  {width height x y : Nat}

theorem scale_steps (h : m.Valid) (hnarrow : m.size ≤ 56) (value : UInt8) :
    umul 64 value.toNat (2 ^ m.size - 1) = .ok (value.toNat * (2 ^ m.size - 1)) ∧
      ushl 64 (value.toNat * (2 ^ m.size - 1) / 255) m.shift =
        .ok (m.field.put (m.scaled value)) := by
  obtain ⟨hone, hsub⟩ := max_steps h.size_lt
  have hput := encodeChannel_put h hnarrow value
  rw [encodeChannel, hone, ok_bind, hsub, ok_bind] at hput
  obtain ⟨product, hproduct, hput⟩ := bind_eq_ok.mp hput
  obtain ⟨-, rfl⟩ := umul_eq_ok.mp hproduct
  exact ⟨hproduct, hput⟩

theorem Ready.encode_pixel (hfb : Ready fb) (p : FbPixel) : p.encode fb.capture =
    fb.encode p.rgb >>= fun word => umul 64 fb.bytesPerPixel 8 >>= fun bits =>
      ushl 64 1 bits >>= fun limit =>
        debugAssert (word < limit) "encoded pixel does not fit the framebuffer word" >>= fun _ =>
          .ok word := by
  obtain ⟨hred, hgreen, hblue⟩ := (⟨hfb.valid.red, hfb.valid.green, hfb.valid.blue⟩ :
    fb.red.Valid ∧ fb.green.Valid ∧ fb.blue.Valid)
  obtain ⟨hr, hr'⟩ := max_steps hred.size_lt
  obtain ⟨hg, hg'⟩ := max_steps hgreen.size_lt
  obtain ⟨hb, hb'⟩ := max_steps hblue.size_lt
  obtain ⟨hmr, hsr⟩ := scale_steps hred hfb.narrow.red p.red
  obtain ⟨hmg, hsg⟩ := scale_steps hgreen hfb.narrow.green p.green
  obtain ⟨hmb, hsb⟩ := scale_steps hblue hfb.narrow.blue p.blue
  simp only [FbPixel.encode, capture, channelSize, channelShift, hr, hr', hg, hg', hb, hb', hmr,
    hmg, hmb, hsr, hsg, hsb, ok_bind, encode, FbPixel.rgb,
    encodeChannel_put hred hfb.narrow.red, encodeChannel_put hgreen hfb.narrow.green,
    encodeChannel_put hblue hfb.narrow.blue, pure_eq_ok]

/-- Below eight bytes a word leaves room for its limit. -/
theorem Ready.encode_pixel_ok (hfb : Ready fb) (hpacked : Packed fb) (hbytes : fb.bytesPerPixel < 8)
    (p : FbPixel) : p.encode fb.capture = fb.encode p.rgb := by
  obtain ⟨word, hword⟩ := hfb.encode_ok p.rgb
  have hlt := hpacked.encode_lt hfb.valid hword
  rw [show 256 = 2 ^ 8 by rfl, ← pow_mul, Nat.mul_comm] at hlt
  have hlimit : 2 ^ (fb.bytesPerPixel * 8) < 2 ^ 64 := Nat.pow_lt_pow_right (by omega) (by omega)
  rw [hfb.encode_pixel, hword, ok_bind, umul_of_lt (by omega), ok_bind, ushl_of_lt (by omega),
    ok_bind, Nat.one_mul, Nat.mod_eq_of_lt hlimit, debugAssert, if_pos (decide_eq_true hlt),
    ok_bind]

/-- At eight bytes the assertion's own shift is out of range. -/
theorem Ready.encode_pixel_stops (hfb : Ready fb) (hbytes : fb.bytesPerPixel = 8) (p : FbPixel) :
    p.encode fb.capture = .error .overflow := by
  obtain ⟨word, hword⟩ := hfb.encode_ok p.rgb
  rw [hfb.encode_pixel, hword, hbytes]
  rfl

def bufferWord (fb : FrameBuffer) (buffer : List FbPixel) (width : Nat) (p : Nat × Nat) : Nat :=
  Bits.pack (fb.packed (buffer.getD (p.2 * width + p.1) ⟨0, 0, 0, 0⟩).rgb)

theorem Ready.bufferWord_eq (hfb : Ready fb) {pixel : FbPixel} {p : Nat × Nat}
    (hpixel : buffer[p.2 * width + p.1]? = some pixel) :
    fb.encode pixel.rgb = .ok (fb.bufferWord buffer width p) := by
  rw [hfb.encode_eq, bufferWord, List.getD_eq_getElem?_getD, hpixel, Option.getD_some]

theorem Ready.write_drawn (hfb : Ready fb) (hpacked : Packed fb) {pixel : FbPixel} {p : Nat × Nat}
    (hp : p ∈ fb.area) (hpixel : buffer[p.2 * width + p.1]? = some pixel) :
    ∃ fb', fb.writeWord p.1 p.2 (fb.bufferWord buffer width p) = .ok (.ok (), fb') ∧
      fb.writePixel p.1 p.2 pixel.rgb = .ok (.ok (), fb') ∧
      Drawn {p} (fb.bufferWord buffer width) fb fb' := by
  have hword := hfb.bufferWord_eq hpixel
  obtain ⟨fb', hfb', hdrawn⟩ := hfb.valid.writeUnchecked_drawn hpacked hp
    (v := fb.bufferWord buffer width) (hpacked.encode_lt hfb.valid hword)
  refine ⟨fb', ?_, ?_, hdrawn⟩
  · rw [writeWord, if_neg (mem_area.mp hp), hfb', ok_bind, pure_eq_ok]
  · rw [writePixel, if_neg (mem_area.mp hp), hword, ok_bind, hfb', ok_bind, pure_eq_ok]

theorem clip_subset (fb : FrameBuffer) (width height : Nat) : fb.clip width height ⊆ fb.area := by
  rintro p ⟨hx, hy⟩
  exact ⟨by omega, by omega⟩

theorem index_lt_of_clip {p : Nat × Nat} (hp : p ∈ fb.clip width height) :
    p.2 * width + p.1 < width * height := by
  obtain ⟨hx, hy⟩ := hp
  have hrow : (p.2 + 1) * width ≤ height * width := Nat.mul_le_mul_right _ (by omega)
  rw [Nat.succ_mul, Nat.mul_comm height] at hrow
  omega

theorem Ready.drawPixels_drawn (hfb : Ready fb) (hpacked : Packed fb)
    (hlength : buffer.length = width * height) {order : List (Nat × Nat)}
    (horder : ∀ p, p ∈ order ↔ p ∈ fb.clip width height) :
    ∃ fb', fb.drawPixels buffer width order = .ok fb' ∧
      Drawn (fb.clip width height) (fb.bufferWord buffer width) fb fb' := by
  obtain ⟨fb', hfb', hdrawn⟩ := forEach_drawn fb (l := order)
    (v := fb.bufferWord buffer width) (R := fun p => {p}) (f := fun p fb => do
      let pixel ← index buffer (p.2 * width + p.1)
      let (_, fb) ← fb.writePixel p.1 p.2 pixel.rgb
      return fb) (by
    intro p hp fb₁ h₁
    have hclip := (horder p).mp hp
    have hlt := hlength ▸ index_lt_of_clip hclip
    have harea := h₁.area ▸ clip_subset fb width height hclip
    have hready := h₁.ready hfb
    have hpacked₁ := h₁.packed hpacked
    obtain ⟨surface, rfl⟩ := h₁
    have hpixel : buffer[p.2 * width + p.1]? = some _ := List.getElem?_eq_getElem hlt
    obtain ⟨fb₂, -, hwrite, hdrawn⟩ := hready.write_drawn hpacked₁ harea hpixel
    refine ⟨fb₂, ?_, hdrawn⟩
    rw [index_of_lt hlt, ok_bind, hwrite, ok_bind]
    rfl)
  exact ⟨fb', hfb', hdrawn.congr fun p => by simp [← horder]⟩

theorem Ready.blitRow_drawn (hfb : Ready fb) (hpacked : Packed fb) (hy : y < min height fb.height)
    (hbytes : 0 < min width fb.width → fb.bytesPerPixel < 8) {row : List FbPixel}
    (hrow : row.length = min width fb.width)
    (hbuffer : ∀ x pixel, row[x]? = some pixel → buffer[y * width + x]? = some pixel)
    {fb₁ : FrameBuffer} (h₁ : Redrawn fb fb₁) : ∃ fb₂, fb₁.blitRow fb.capture y row = .ok fb₂ ∧
      Drawn {p | p.1 < min width fb.width ∧ p.2 = y} (fb.bufferWord buffer width) fb₁ fb₂ := by
  obtain ⟨fb₂, hfb₂, hdrawn⟩ := forEach_drawn fb₁ (l := row.zipIdx)
    (v := fb.bufferWord buffer width) (R := fun e => {(e.2, y)}) (f := fun (pixel, x) fb₂ => do
      let (_, fb₂) ← fb₂.writeWord (x % 2 ^ 32) y (← pixel.encode fb.capture)
      return fb₂) (by
    rintro ⟨pixel, x⟩ he fb₂ h₂
    have hpixel := List.mem_zipIdx_iff_getElem?.mp he
    have hx : x < min width fb.width := hrow ▸ (List.getElem?_eq_some_iff.mp hpixel).1
    have hwidth := hfb.valid.width_lt
    have hredrawn := h₁.trans h₂
    have harea : (x, y) ∈ fb₂.area := by
      rw [hredrawn.area]
      exact ⟨show x < fb.width by omega, show y < fb.height by omega⟩
    have hready := hredrawn.ready hfb
    have hpacked₂ := hredrawn.packed hpacked
    have hencode := hfb.encode_pixel_ok hpacked (hbytes (by omega)) pixel
    rw [hfb.bufferWord_eq (p := (x, y)) (hbuffer x pixel hpixel)] at hencode
    obtain ⟨surface, rfl⟩ := hredrawn
    have hentry : buffer[(x, y).2 * width + (x, y).1]? = some pixel := hbuffer x pixel hpixel
    obtain ⟨fb₃, hwrite, -, hdrawn⟩ := hready.write_drawn hpacked₂ harea hentry
    refine ⟨fb₃, ?_, hdrawn⟩
    dsimp only
    rw [hencode, ok_bind, Nat.mod_eq_of_lt (by omega)]
    exact (congrArg (· >>= _) hwrite).trans rfl)
  refine ⟨fb₂, hfb₂, hdrawn.congr fun p => ?_⟩
  simp only [Set.mem_ofPred_eq, Set.mem_singleton_iff]
  constructor
  · rintro ⟨e, he, rfl⟩
    have hpixel := List.mem_zipIdx_iff_getElem?.mp he
    exact ⟨hrow ▸ (List.getElem?_eq_some_iff.mp hpixel).1, rfl⟩
  · rintro ⟨hx, rfl⟩
    have hlt : p.1 < row.length := hrow ▸ hx
    exact ⟨(row[p.1], p.1), List.mem_zipIdx_iff_getElem?.mpr (List.getElem?_eq_getElem hlt), rfl⟩

theorem rowOf_ok (hlength : buffer.length = width * height) (hlt : width * height < 2 ^ 32)
    {w : Nat} (hw : w ≤ width) (hy : y < height) : ∃ row, rowOf buffer width y w = .ok row ∧
      row.length = w ∧ ∀ x pixel, row[x]? = some pixel → buffer[y * width + x]? = some pixel := by
  have hrow : (y + 1) * width ≤ height * width := Nat.mul_le_mul_right _ hy
  rw [Nat.succ_mul, Nat.mul_comm height] at hrow
  refine ⟨(buffer.drop (y * width)).take w, ?_, ?_, ?_⟩
  · rw [rowOf, umul_of_lt (by omega), ok_bind, ok_bind, uadd_of_lt (by omega), ok_bind,
      slice_of_le ⟨by omega, by omega⟩, Nat.add_sub_cancel_left]
  · rw [List.length_take, List.length_drop]
    omega
  · intro x pixel hpixel
    rw [List.getElem?_take] at hpixel
    split at hpixel
    · rwa [List.getElem?_drop] at hpixel
    · cases hpixel

theorem Ready.blit_drawn (hfb : Ready fb) (hpacked : Packed fb)
    (hlength : buffer.length = width * height) (hlt : width * height < 2 ^ 32)
    (hcond : fb.bytesPerPixel < 8 ∨ min width fb.width = 0 ∨ min height fb.height = 0) :
    ∃ fb', blitToFramebuffer (some fb.capture) fb buffer width height = .ok fb' ∧
      Drawn (fb.clip width height) (fb.bufferWord buffer width) fb fb' := by
  obtain ⟨fb', hfb', hdrawn⟩ := forRange_drawn fb (n := min height fb.height)
    (v := fb.bufferWord buffer width) (R := fun y => {p | p.1 < min width fb.width ∧ p.2 = y})
    (f := fun y fb₁ => do
      fb₁.blitRow fb.capture y (← rowOf buffer width y (min width fb.width))) (by
    intro y hy fb₁ h₁
    obtain ⟨row, hrow, hrowlength, hbuffer⟩ := rowOf_ok hlength hlt
      (Nat.min_le_left width fb.width) (show y < height by omega)
    obtain ⟨fb₂, hfb₂, hdrawn⟩ := hfb.blitRow_drawn hpacked hy (by omega) hrowlength hbuffer h₁
    exact ⟨fb₂, by rw [hrow, ok_bind, hfb₂], hdrawn⟩)
  have hblit : blitToFramebuffer (some fb.capture) fb buffer width height = .ok fb' := by
    rw [blitToFramebuffer, expect_some, ok_bind]
    exact hfb'
  refine ⟨fb', hblit, hdrawn.congr fun p => ?_⟩
  simp only [clip, Set.mem_ofPred_eq]
  constructor
  · rintro ⟨y, hy, hx, rfl⟩
    exact ⟨hx, hy⟩
  · exact fun ⟨hx, hy⟩ => ⟨p.2, hy, hx, rfl⟩

theorem Ready.blit_stops (hfb : Ready fb) (hlength : buffer.length = width * height)
    (hlt : width * height < 2 ^ 32) (hbytes : fb.bytesPerPixel = 8)
    (hwidth : 0 < min width fb.width) (hheight : 0 < min height fb.height) :
    blitToFramebuffer (some fb.capture) fb buffer width height = .error .overflow := by
  obtain ⟨row, hrow, hrowlength, -⟩ := rowOf_ok hlength hlt (Nat.min_le_left width fb.width)
    (show 0 < height by omega)
  obtain ⟨pixel, rest, rfl⟩ := List.exists_cons_of_length_pos (hrowlength ▸ hwidth)
  rw [blitToFramebuffer, expect_some, ok_bind]
  apply forRange_error hheight
  have hstop := hfb.encode_pixel_stops hbytes pixel
  refine (congrArg (· >>= _) hrow).trans ?_
  rw [ok_bind, blitRow, List.zipIdx_cons, forEach_cons]
  dsimp only
  rw [hstop]
  rfl

theorem blit_agrees_iff (hlayout : fromLayout layout = .ok (.ok fb)) (hnarrow : Narrow fb)
    (hlength : buffer.length = width * height) (hlt : width * height < 2 ^ 32) :
    BlitAgrees fb buffer width height ↔
      fb.bytesPerPixel < 8 ∨ min width fb.width = 0 ∨ min height fb.height = 0 := by
  have hfb : Ready fb := ⟨Valid.of_fromLayout hlayout, hnarrow⟩
  have hpacked := Packed.of_fromLayout hlayout
  constructor
  · rintro ⟨fb', hblit, -⟩
    by_contra hcond
    have hle := hpacked.bytes_le
    rw [hfb.blit_stops hlength hlt (by omega) (by omega) (by omega)] at hblit
    cases hblit
  · intro hcond
    obtain ⟨fb', hblit, hdrawn⟩ := hfb.blit_drawn hpacked hlength hlt hcond
    refine ⟨fb', hblit, fun order horder => ?_, hdrawn.on.frame⟩
    obtain ⟨fb'', hdraw, hdrawn'⟩ := hfb.drawPixels_drawn hpacked hlength horder
    rw [hdraw, hdrawn.unique hdrawn' (clip_subset fb width height)]

theorem blit_agrees_screen : ∃ fb, fromLayout (FrameLayout.screen 2 2 8) = .ok (.ok fb) ∧
    BlitAgrees fb (List.replicate 3 ⟨0xFF, 0x12, 0x34, 0xFF⟩) 3 1 := by
  have hlayout : fromLayout (FrameLayout.screen 2 2 8) = .ok (.ok _) := rfl
  exact ⟨_, hlayout, (blit_agrees_iff hlayout ⟨by decide, by decide, by decide⟩ rfl
    (by decide)).mpr (.inl (by decide))⟩

def wideScreen : FrameLayout := { FrameLayout.screen 1 1 8 with bpp := 64 }

theorem not_blit_agrees : ∃ fb, fromLayout wideScreen = .ok (.ok fb) ∧ Narrow fb ∧
    blitToFramebuffer (some fb.capture) fb [⟨0, 0, 0, 0⟩] 1 1 = .error .overflow ∧
    ¬BlitAgrees fb [⟨0, 0, 0, 0⟩] 1 1 := by
  have hlayout : fromLayout wideScreen = .ok (.ok _) := rfl
  refine ⟨_, hlayout, ⟨by decide, by decide, by decide⟩, rfl, ?_⟩
  rintro ⟨fb', hblit, -⟩
  cases hblit

end FrameBuffer

end FerricK
