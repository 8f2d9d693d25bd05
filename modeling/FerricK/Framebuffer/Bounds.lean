import FerricK.Framebuffer.Pixels

namespace FerricK.FrameBuffer

open Rust

def writePixel (fb : FrameBuffer) (x y : Nat) (color : Rgb) :
    Rust (Except FramebufferError Unit × FrameBuffer) :=
  if x ≥ fb.width ∨ y ≥ fb.height then return (.error .outOfBounds, fb)
  else do return (.ok (), ← fb.writeUnchecked x y (← fb.encode color))

/-- The arguments are `u32`s, and their sums `u64`s, which do not overflow. -/
def fillRect (fb : FrameBuffer) (x y w h : Nat) (color : Rgb) :
    Rust (Except FramebufferError Unit × FrameBuffer) :=
  if w = 0 ∨ h = 0 ∨ x + w > fb.width ∨ y + h > fb.height then return (.error .outOfBounds, fb)
  else do
    let pixel ← fb.encode color
    let fb ← forRange h (fun dy fb =>
      forRange w (fun dx fb => do
        fb.writeUnchecked (← uadd 32 x dx) (← uadd 32 y dy) pixel) fb) fb
    return (.ok (), fb)

def rect (x y w h : Nat) : Set (Nat × Nat) := {p | (x ≤ p.1 ∧ p.1 < x + w) ∧ y ≤ p.2 ∧ p.2 < y + h}

def bytesOf (fb : FrameBuffer) (R : Set (Nat × Nat)) : Set Nat :=
  {a | ∃ p ∈ R, fb.offset p ≤ a ∧ a < fb.offset p + fb.bytesPerPixel}

/-- `fb'` is `fb` with something drawn on the pixels in `R`, and every other byte as it was. -/
structure DrawnOn (R : Set (Nat × Nat)) (fb fb' : FrameBuffer) : Prop where
  redrawn : Redrawn fb fb'
  frame : ∀ a ∉ fb.bytesOf R, fb'.surface a = fb.surface a

/-- Pixels have their bytes to themselves inside the surface, accesses keep to the bytes of the
pixels they are for, and there is no access for others. -/
structure Bounded (fb : FrameBuffer) : Prop where
  offset_ok : ∀ p ∈ fb.area, (umul 64 p.2 fb.pitch >>= fun row =>
    umul 64 p.1 fb.bytesPerPixel >>= fun col => uadd 64 row col) = .ok (fb.offset p)
  inside : ∀ p ∈ fb.area, fb.offset p + fb.bytesPerPixel ≤ fb.pitch * fb.height
  disjoint : ∀ p ∈ fb.area, ∀ q ∈ fb.area, p ≠ q →
    fb.offset p + fb.bytesPerPixel ≤ fb.offset q ∨ fb.offset q + fb.bytesPerPixel ≤ fb.offset p
  write : ∀ p ∈ fb.area, ∀ word, ∃ fb', fb.writeUnchecked p.1 p.2 word = .ok fb' ∧
    DrawnOn {p} fb fb'
  read : ∀ p ∈ fb.area, ∀ surface, (∀ a ∈ fb.bytesOf {p}, surface a = fb.surface a) →
    ∃ word, fb.readRawPixel p.1 p.2 = .ok (some word) ∧
      { fb with surface := surface }.readRawPixel p.1 p.2 = .ok (some word)
  writePixel_outside : ∀ p ∉ fb.area, ∀ color,
    fb.writePixel p.1 p.2 color = .ok (.error .outOfBounds, fb)
  writeWord_outside : ∀ p ∉ fb.area, ∀ word,
    fb.writeWord p.1 p.2 word = .ok (.error .outOfBounds, fb)
  readRawPixel_outside : ∀ p ∉ fb.area, ∀ surface,
    { fb with surface := surface }.readRawPixel p.1 p.2 = .ok none
  fillRect_outside : ∀ x y w h, ¬((rect x y w h).Nonempty ∧ rect x y w h ⊆ fb.area) → ∀ color,
    fb.fillRect x y w h color = .ok (.error .outOfBounds, fb)
  writes : ∀ x y color word r fb', fb.writePixel x y color = .ok (r, fb') ∨
    fb.writeWord x y word = .ok (r, fb') → DrawnOn ({(x, y)} ∩ fb.area) fb fb'
  fills : ∀ x y w h color r fb', fb.fillRect x y w h color = .ok (r, fb') →
    DrawnOn (rect x y w h ∩ fb.area) fb fb'

variable {fb fb' fb'' : FrameBuffer} {layout : FrameLayout} {p q : Nat × Nat} {x y w h word : Nat}
  {R S : Set (Nat × Nat)} {color : Rgb} {surface : Nat → UInt8}

theorem DrawnOn.refl (R : Set (Nat × Nat)) (fb : FrameBuffer) : DrawnOn R fb fb :=
  ⟨Redrawn.refl fb, fun _ _ => rfl⟩

theorem Redrawn.bytesOf (h : Redrawn fb fb') (R : Set (Nat × Nat)) :
    fb'.bytesOf R = fb.bytesOf R := by
  obtain ⟨surface, rfl⟩ := h
  rfl

theorem DrawnOn.trans (h : DrawnOn R fb fb') (h' : DrawnOn R fb' fb'') : DrawnOn R fb fb'' where
  redrawn := h.redrawn.trans h'.redrawn
  frame a ha := (h'.frame a (h.redrawn.bytesOf R ▸ ha)).trans (h.frame a ha)

theorem DrawnOn.mono (h : DrawnOn R fb fb') (hsub : R ⊆ S) : DrawnOn S fb fb' where
  redrawn := h.redrawn
  frame a ha := h.frame a fun ⟨p, hp, hin⟩ => ha ⟨p, hsub hp, hin⟩

theorem Redrawn.valid (h : Redrawn fb fb') (hfb : fb.Valid) : fb'.Valid := by
  obtain ⟨surface, rfl⟩ := h
  exact ⟨hfb.width_lt, hfb.height_lt, hfb.row_le, hfb.area_lt, hfb.red, hfb.green, hfb.blue⟩

theorem Valid.offset_ok (hfb : Valid fb) (hp : p ∈ fb.area) :
    (umul 64 p.2 fb.pitch >>= fun row => umul 64 p.1 fb.bytesPerPixel >>= fun col =>
      uadd 64 row col) = .ok (fb.offset p) := by
  have hlt := hfb.offset_lt hp
  rw [offset] at hlt
  rw [umul_of_lt (by omega), ok_bind, umul_of_lt (by omega), ok_bind, uadd_of_lt (by omega), offset]

theorem Valid.offset_le_area (hfb : Valid fb) (hp : p ∈ fb.area) :
    fb.offset p + fb.bytesPerPixel ≤ fb.pitch * fb.height := by
  have hrows : (p.2 + 1) * fb.pitch ≤ fb.height * fb.pitch := Nat.mul_le_mul_right _ hp.2
  rw [Nat.mul_comm fb.pitch]
  exact (hfb.offset_le hp).trans hrows

theorem Valid.writeUnchecked_drawnOn (hfb : Valid fb) (hpacked : Packed fb) (hp : p ∈ fb.area)
    (word : Nat) : ∃ fb', fb.writeUnchecked p.1 p.2 word = .ok fb' ∧ DrawnOn {p} fb fb' := by
  have hwrite := hfb.writeWord_eq hpacked hp word
  rw [writeWord, if_neg (mem_area.mp hp)] at hwrite
  obtain ⟨fb', hfb', heq⟩ := bind_eq_ok.mp hwrite
  cases heq
  refine ⟨_, hfb', ⟨_, rfl⟩, fun a ha => Bytes.store_of_not_mem fun hmem => ha ⟨p, rfl, ?_⟩⟩
  rwa [Bytes.length_toLE, Bytes.mem_span_nat] at hmem

theorem rect_subset : (rect x y w h).Nonempty ∧ rect x y w h ⊆ fb.area ↔
    ¬(w = 0 ∨ h = 0 ∨ x + w > fb.width ∨ y + h > fb.height) := by
  constructor
  · rintro ⟨⟨q, ⟨hx₁, hx₂⟩, hy₁, hy₂⟩, hsub⟩
    have hcorner : (x + w - 1, y + h - 1) ∈ rect x y w h := by
      simp only [rect, Set.mem_ofPred_eq]
      omega
    have hin := hsub hcorner
    simp only [area, Set.mem_ofPred_eq] at hin
    omega
  · intro hcheck
    refine ⟨⟨(x, y), ?_⟩, fun q ⟨⟨hx₁, hx₂⟩, hy₁, hy₂⟩ => ?_⟩
    · simp only [rect, Set.mem_ofPred_eq]
      omega
    · simp only [area, Set.mem_ofPred_eq]
      omega

theorem Valid.fill_drawnOn (hfb : Valid fb) (hpacked : Packed fb)
    (hcheck : ¬(w = 0 ∨ h = 0 ∨ x + w > fb.width ∨ y + h > fb.height)) (pixel : Nat) :
    ∃ fb', forRange h (fun dy fb => forRange w (fun dx fb => do
        fb.writeUnchecked (← uadd 32 x dx) (← uadd 32 y dy) pixel) fb) fb = .ok fb' ∧
      DrawnOn (rect x y w h) fb fb' := by
  have hwidth := hfb.width_lt
  have hheight := hfb.height_lt
  apply forRange_rule (fun _ fb' => DrawnOn (rect x y w h) fb fb') (DrawnOn.refl _ fb)
  intro dy hdy fb₁ h₁
  apply forRange_rule (fun _ fb' => DrawnOn (rect x y w h) fb fb') h₁
  intro dx hdx fb₂ h₂
  have hp : (x + dx, y + dy) ∈ fb₂.area := by
    rw [h₂.redrawn.area]
    simp only [area, Set.mem_ofPred_eq]
    omega
  obtain ⟨fb₃, hfb₃, h₃⟩ := (h₂.redrawn.valid hfb).writeUnchecked_drawnOn
    (h₂.redrawn.packed hpacked) hp pixel
  refine ⟨fb₃, ?_, h₂.trans (h₃.mono ?_)⟩
  · rw [uadd_of_lt (by omega), ok_bind, uadd_of_lt (by omega), ok_bind]
    exact hfb₃
  · rintro q rfl
    simp only [rect, Set.mem_ofPred_eq]
    omega

theorem Valid.fillRect_drawnOn (hfb : Valid fb) (hpacked : Packed fb)
    {r : Except FramebufferError Unit} (hfill : fb.fillRect x y w h color = .ok (r, fb')) :
    DrawnOn (rect x y w h ∩ fb.area) fb fb' := by
  rw [fillRect] at hfill
  split at hfill
  · cases hfill
    exact DrawnOn.refl _ fb
  next hcheck =>
  obtain ⟨pixel, -, hfill⟩ := bind_eq_ok.mp hfill
  obtain ⟨fb₁, hfb₁, h₁⟩ := hfb.fill_drawnOn hpacked hcheck pixel
  rw [hfb₁, ok_bind] at hfill
  cases hfill
  exact h₁.mono fun q hq => ⟨hq, (rect_subset.mpr hcheck).2 hq⟩

theorem Valid.write_drawnOn (hfb : Valid fb) (hpacked : Packed fb)
    {r : Except FramebufferError Unit} (hwrite : fb.writePixel x y color = .ok (r, fb') ∨
      fb.writeWord x y word = .ok (r, fb')) : DrawnOn ({(x, y)} ∩ fb.area) fb fb' := by
  by_cases hin : (x, y) ∈ fb.area
  · have hcheck := mem_area.mp hin
    have hdrawn : ∃ word, fb.writeUnchecked x y word = .ok fb' := by
      rcases hwrite with hpixel | hword
      · rw [writePixel, if_neg hcheck] at hpixel
        obtain ⟨word, -, hpixel⟩ := bind_eq_ok.mp hpixel
        obtain ⟨fb₁, hfb₁, hpixel⟩ := bind_eq_ok.mp hpixel
        cases hpixel
        exact ⟨word, hfb₁⟩
      · rw [writeWord, if_neg hcheck] at hword
        obtain ⟨fb₁, hfb₁, hword⟩ := bind_eq_ok.mp hword
        cases hword
        exact ⟨word, hfb₁⟩
    obtain ⟨word, hword⟩ := hdrawn
    obtain ⟨fb₁, hfb₁, h₁⟩ := hfb.writeUnchecked_drawnOn hpacked hin word
    rw [hword] at hfb₁
    cases hfb₁
    exact h₁.mono fun q hq => ⟨hq, Set.mem_singleton_iff.mp hq ▸ hin⟩
  · have hcheck : x ≥ fb.width ∨ y ≥ fb.height := not_not.mp fun hc => hin (mem_area.mpr hc)
    rw [writePixel, writeWord, if_pos hcheck, if_pos hcheck] at hwrite
    rcases hwrite with hwrite | hwrite <;> cases hwrite <;> exact DrawnOn.refl _ fb

theorem Valid.readRawPixel_congr (hfb : Valid fb) (hpacked : Packed fb) (hp : p ∈ fb.area)
    (hsame : ∀ a ∈ fb.bytesOf {p}, surface a = fb.surface a) :
    ∃ word, fb.readRawPixel p.1 p.2 = .ok (some word) ∧
      { fb with surface := surface }.readRawPixel p.1 p.2 = .ok (some word) := by
  have hredrawn : Redrawn fb { fb with surface := surface } := ⟨surface, rfl⟩
  have hload : Bytes.load surface (fb.offset p) fb.bytesPerPixel =
      Bytes.load fb.surface (fb.offset p) fb.bytesPerPixel := by
    apply Bytes.load_congr
    intro a ha
    exact hsame a ⟨p, rfl, Bytes.mem_span_nat.mp ha⟩
  refine ⟨_, hfb.readRawPixel_eq hpacked hp, ?_⟩
  rw [(hredrawn.valid hfb).readRawPixel_eq (hredrawn.packed hpacked) hp]
  exact congrArg (fun bytes => Except.ok (some (Bytes.ofLE bytes))) hload

theorem bounded_of_fromLayout (hlayout : fromLayout layout = .ok (.ok fb)) : Bounded fb := by
  have hfb := Valid.of_fromLayout hlayout
  have hpacked := Packed.of_fromLayout hlayout
  have hout : ∀ {p : Nat × Nat}, p ∉ fb.area → p.1 ≥ fb.width ∨ p.2 ≥ fb.height := fun hp =>
    not_not.mp fun hc => hp (mem_area.mpr hc)
  constructor
  · exact fun p => hfb.offset_ok
  · exact fun p => hfb.offset_le_area
  · exact fun p hp q => hfb.offset_disjoint hp
  · exact fun p hp => hfb.writeUnchecked_drawnOn hpacked hp
  · exact fun p hp surface => hfb.readRawPixel_congr hpacked hp
  · exact fun p hp color => by rw [writePixel, if_pos (hout hp), pure_eq_ok]
  · exact fun p hp word => by rw [writeWord, if_pos (hout hp), pure_eq_ok]
  · exact fun p hp surface => by rw [readRawPixel, if_pos (hout hp), pure_eq_ok]
  · intro x y w h hrect color
    rw [fillRect, if_pos (not_not.mp fun hc => hrect (rect_subset.mpr hc)), pure_eq_ok]
  · exact fun x y color word r fb' => hfb.write_drawnOn hpacked
  · exact fun x y w h color r fb' => hfb.fillRect_drawnOn hpacked

theorem bounded_screen :
    ∃ fb, fromLayout (FrameLayout.screen 8 4 40) = .ok (.ok fb) ∧ Bounded fb := by
  have hlayout : fromLayout (FrameLayout.screen 8 4 40) = .ok (.ok _) := rfl
  exact ⟨_, hlayout, bounded_of_fromLayout hlayout⟩

end FerricK.FrameBuffer
