import FerricK.Framebuffer.Aligned

namespace FerricK.FrameBuffer

open Rust Raster

structure Drawn (R : Set (Nat × Nat)) (w : Nat × Nat → Nat) (fb fb' : FrameBuffer) : Prop where
  on : DrawnOn R fb fb'
  painted : Painted fb.area R w fb.pixel fb'.pixel

def byteStoresAt (fb : FrameBuffer) (offset pixel : Nat) : List VolatileStore :=
  ((Bytes.toLE 8 pixel).take fb.bytesPerPixel).zipIdx.map fun (b, i) => ⟨fb.ptr + (offset + i), [b]⟩

/-- A written word is read back, other pixels and bytes are as before, and the width of the stores
makes no difference. -/
structure RoundTrip (fb : FrameBuffer) (p : Nat × Nat) (word : Nat) : Prop where
  read : ∃ fb', fb.writeWord p.1 p.2 word = .ok (.ok (), fb') ∧
    fb'.readRawPixel p.1 p.2 = .ok (some word) ∧
    (∀ q ∈ fb.area, q ≠ p → fb'.readRawPixel q.1 q.2 = fb.readRawPixel q.1 q.2) ∧
    (∀ a ∉ fb.bytesOf {p}, fb'.surface a = fb.surface a)
  stores : ∃ offset, fb.volatileStores p.1 p.2 word = .ok (fb.storesAt offset word) ∧
    fb.perform (fb.storesAt offset word) = fb.perform (fb.byteStoresAt offset word)

structure AllOrNothing (fb : FrameBuffer) (x y w h : Nat) (color : Rgb) : Prop where
  nothing : w = 0 ∨ h = 0 ∨ ¬ rect x y w h ⊆ fb.area →
    fb.fillRect x y w h color = .ok (.error .outOfBounds, fb)
  all : ¬(w = 0 ∨ h = 0 ∨ ¬ rect x y w h ⊆ fb.area) → ∃ word fb', fb.encode color = .ok word ∧
    fb.fillRect x y w h color = .ok (.ok (), fb') ∧
    (∀ p ∈ rect x y w h, fb'.readRawPixel p.1 p.2 = .ok (some word)) ∧
    (∀ a ∉ fb.bytesOf (rect x y w h), fb'.surface a = fb.surface a)

variable {fb fb' fb'' : FrameBuffer} {layout : FrameLayout} {p q : Nat × Nat} {x y w h word : Nat}
  {R S : Set (Nat × Nat)} {v : Nat × Nat → Nat} {color : Rgb}

theorem Drawn.refl (v : Nat × Nat → Nat) (fb : FrameBuffer) : Drawn ∅ v fb fb :=
  ⟨DrawnOn.refl ∅ fb, Painted.refl fb.area v fb.pixel⟩

theorem Drawn.trans (h : Drawn R v fb fb') (h' : Drawn S v fb' fb'') :
    Drawn (R ∪ S) v fb fb'' where
  on := (h.on.mono Set.subset_union_left).trans (h'.on.mono Set.subset_union_right)
  painted := h.painted.trans (h.on.redrawn.area ▸ h'.painted)

theorem Drawn.congr (h : Drawn R v fb fb') (hRS : ∀ p, p ∈ R ↔ p ∈ S) : Drawn S v fb fb' where
  on := h.on.mono fun p hp => (hRS p).mp hp
  painted := h.painted.congr fun p _ => hRS p

theorem Drawn.repaint {u : Nat × Nat → Nat} (h : Drawn R v fb fb') (huv : ∀ p ∈ R, v p = u p) :
    Drawn R u fb fb' where
  on := h.on
  painted := ⟨fun p hp hR => (h.painted.inside p hp hR).trans (huv p hR), h.painted.outside⟩

theorem Drawn.step (h : Drawn R v fb' fb'') (h₀ : DrawnOn S fb fb') (hsub : R ⊆ S) :
    DrawnOn S fb fb'' ∧ Painted fb.area R v fb'.pixel fb''.pixel :=
  ⟨h₀.trans (h.on.mono hsub), h₀.redrawn.area ▸ h.painted⟩

theorem forRange_drawn (fb : FrameBuffer) {n : Nat} {f : Nat → FrameBuffer → Rust FrameBuffer}
    {R : Nat → Set (Nat × Nat)} (step : ∀ i < n, ∀ fb₁, Redrawn fb fb₁ →
      ∃ fb₂, f i fb₁ = .ok fb₂ ∧ Drawn (R i) v fb₁ fb₂) :
    ∃ fb', forRange n f fb = .ok fb' ∧ Drawn {p | ∃ i < n, p ∈ R i} v fb fb' := by
  obtain ⟨fb', hfb', hon, hpainted⟩ := forRange_painted pixel
    (DrawnOn {p | ∃ i < n, p ∈ R i} fb) (R := R) (D := fb.area) (w := v) (DrawnOn.refl _ fb)
    fun i hi fb₁ h₁ => by
      obtain ⟨fb₂, hf, h₂⟩ := step i hi fb₁ h₁.redrawn
      exact ⟨fb₂, hf, h₂.step h₁ fun p hp => ⟨i, hi, hp⟩⟩
  exact ⟨fb', hfb', hon, hpainted⟩

theorem forEach_drawn {α : Type} (fb : FrameBuffer) {l : List α}
    {f : α → FrameBuffer → Rust FrameBuffer} {R : α → Set (Nat × Nat)}
    (step : ∀ a ∈ l, ∀ fb₁, Redrawn fb fb₁ →
      ∃ fb₂, f a fb₁ = .ok fb₂ ∧ Drawn (R a) v fb₁ fb₂) :
    ∃ fb', forEach l f fb = .ok fb' ∧ Drawn {p | ∃ a ∈ l, p ∈ R a} v fb fb' := by
  obtain ⟨fb', hfb', hon, hpainted⟩ := forEach_painted pixel
    (DrawnOn {p | ∃ a ∈ l, p ∈ R a} fb) (R := R) (D := fb.area) (w := v) (DrawnOn.refl _ fb)
    fun a ha fb₁ h₁ => by
      obtain ⟨fb₂, hf, h₂⟩ := step a ha fb₁ h₁.redrawn
      exact ⟨fb₂, hf, h₂.step h₁ fun p hp => ⟨a, ha, hp⟩⟩
  exact ⟨fb', hfb', hon, hpainted⟩

theorem Drawn.unique (h : Drawn R v fb fb') (h' : Drawn R v fb fb'') (hR : R ⊆ fb.area) :
    fb' = fb'' := by
  obtain ⟨⟨⟨surface, rfl⟩, hframe⟩, hpainted⟩ := h
  obtain ⟨⟨⟨surface', rfl⟩, hframe'⟩, hpainted'⟩ := h'
  have hsurface : surface = surface' := by
    funext a
    by_cases ha : a ∈ fb.bytesOf R
    · obtain ⟨p, hp, hle, hlt⟩ := ha
      have hpixel : Bytes.ofLE (Bytes.load surface (fb.offset p) fb.bytesPerPixel) =
          Bytes.ofLE (Bytes.load surface' (fb.offset p) fb.bytesPerPixel) :=
        (hpainted.inside p (hR hp) hp).trans (hpainted'.inside p (hR hp) hp).symm
      have hload := Bytes.ofLE_inj (by simp) hpixel
      exact Bytes.load_inj.mp hload a (Bytes.mem_span_nat.mpr ⟨hle, hlt⟩)
    · exact (hframe a ha).trans (hframe' a ha).symm
  rw [hsurface]

theorem Valid.writeUnchecked_drawn (hfb : Valid fb) (hpacked : Packed fb) (hp : p ∈ fb.area)
    (hword : v p < 256 ^ fb.bytesPerPixel) :
    ∃ fb', fb.writeUnchecked p.1 p.2 (v p) = .ok fb' ∧ Drawn {p} v fb fb' := by
  obtain ⟨fb', hfb', hon⟩ := hfb.writeUnchecked_drawnOn hpacked hp (v p)
  obtain ⟨fb'', hwrite, -, hpainted⟩ := hfb.writeWord_painted hpacked hp hword
  rw [writeWord, if_neg (mem_area.mp hp), hfb', ok_bind] at hwrite
  cases hwrite
  exact ⟨fb', hfb', hon, hpainted⟩

theorem Drawn.read (h : Drawn R v fb fb') (hfb : Valid fb) (hpacked : Packed fb)
    (hp : p ∈ fb.area) (hR : p ∈ R) : fb'.readRawPixel p.1 p.2 = .ok (some (v p)) := by
  have hredrawn := h.on.redrawn
  rw [(hredrawn.valid hfb).readRawPixel_eq (hredrawn.packed hpacked) (hredrawn.area ▸ hp),
    h.painted.inside p hp hR]

theorem Drawn.read_frame (h : Drawn R v fb fb') (hfb : Valid fb) (hpacked : Packed fb)
    (hp : p ∈ fb.area) (hR : p ∉ R) : fb'.readRawPixel p.1 p.2 = fb.readRawPixel p.1 p.2 := by
  have hredrawn := h.on.redrawn
  rw [(hredrawn.valid hfb).readRawPixel_eq (hredrawn.packed hpacked) (hredrawn.area ▸ hp),
    hfb.readRawPixel_eq hpacked hp, h.painted.outside p hp hR]

theorem perform_byteStoresAt (fb : FrameBuffer) (offset pixel : Nat) :
    (fb.perform (fb.byteStoresAt offset pixel)).surface =
      Bytes.store fb.surface offset ((Bytes.toLE 8 pixel).take fb.bytesPerPixel) := by
  simp only [perform, byteStoresAt, List.foldl_map, Nat.add_sub_cancel_left]
  exact Bytes.foldl_store fb.surface offset 0 _

theorem perform_storesAt_eq (h : fb.bytesPerPixel ≤ 8) (offset pixel : Nat) :
    fb.perform (fb.storesAt offset pixel) = fb.perform (fb.byteStoresAt offset pixel) := by
  have hsurface : (fb.perform (fb.storesAt offset pixel)).surface =
      (fb.perform (fb.byteStoresAt offset pixel)).surface := by
    rw [perform_byteStoresAt, Bytes.take_toLE h]
    exact (perform_storesAt fb offset pixel).trans (storeWidth fb.surface offset pixel _ h)
  exact congrArg (fun surface => { fb with surface := surface }) hsurface

/-- On any layout that is accepted, with its stores taken to be aligned. -/
theorem write_read (hlayout : fromLayout layout = .ok (.ok fb)) (hp : p ∈ fb.area)
    (hword : word < 2 ^ (8 * fb.bytesPerPixel)) : RoundTrip fb p word := by
  have hfb := Valid.of_fromLayout hlayout
  have hpacked := Packed.of_fromLayout hlayout
  rw [pow_mul] at hword
  obtain ⟨fb', hfb', hdrawn⟩ := hfb.writeUnchecked_drawn (v := fun _ => word) hpacked hp hword
  constructor
  · refine ⟨fb', ?_, hdrawn.read hfb hpacked hp rfl, ?_, hdrawn.on.frame⟩
    · rw [writeWord, if_neg (mem_area.mp hp), hfb', ok_bind, pure_eq_ok]
    · exact fun q hq hne => hdrawn.read_frame hfb hpacked hq hne
  · exact ⟨fb.offset p, hfb.volatileStores_eq hp word, perform_storesAt_eq hpacked.bytes_le _ _⟩

theorem write_read_screen : ∃ fb, fromLayout (FrameLayout.screen 8 4 40) = .ok (.ok fb) ∧
    RoundTrip fb (7, 3) 0xFFFFFF := by
  have hlayout : fromLayout (FrameLayout.screen 8 4 40) = .ok (.ok _) := rfl
  exact ⟨_, hlayout, write_read hlayout (show 7 < 8 ∧ 3 < 4 by decide) (by decide)⟩

theorem Valid.fill_drawn (hfb : Valid fb) (hpacked : Packed fb)
    (hcheck : ¬(w = 0 ∨ h = 0 ∨ x + w > fb.width ∨ y + h > fb.height))
    (hword : word < 256 ^ fb.bytesPerPixel) :
    ∃ fb', forRange h (fun dy fb => forRange w (fun dx fb => do
        fb.writeUnchecked (← uadd 32 x dx) (← uadd 32 y dy) word) fb) fb = .ok fb' ∧
      Drawn (rect x y w h) (fun _ => word) fb fb' := by
  have hwidth := hfb.width_lt
  have hheight := hfb.height_lt
  obtain ⟨fb', hfb', hdrawn⟩ := forRange_drawn fb (n := h) (v := fun _ => word)
    (R := fun dy => {p | ∃ dx < w, p = (x + dx, y + dy)})
    (f := fun dy fb => forRange w (fun dx fb => do
      fb.writeUnchecked (← uadd 32 x dx) (← uadd 32 y dy) word) fb) (by
    intro dy hdy fb₁ h₁
    apply forRange_drawn fb₁ (R := fun dx => {(x + dx, y + dy)})
    intro dx hdx fb₂ h₂
    have hredrawn := h₁.trans h₂
    rw [uadd_of_lt (by omega), ok_bind, uadd_of_lt (by omega), ok_bind]
    apply (hredrawn.valid hfb).writeUnchecked_drawn (p := (x + dx, y + dy)) (v := fun _ => word)
      (hredrawn.packed hpacked)
    · rw [hredrawn.area]
      simp only [area, Set.mem_ofPred_eq]
      omega
    · obtain ⟨surface, rfl⟩ := hredrawn
      exact hword)
  refine ⟨fb', hfb', hdrawn.congr fun p => ?_⟩
  simp only [rect, Set.mem_ofPred_eq]
  constructor
  · rintro ⟨dy, hdy, dx, hdx, rfl⟩
    exact ⟨⟨by simp, by simpa using hdx⟩, by simp, by simpa using hdy⟩
  · rintro ⟨⟨hx₁, hx₂⟩, hy₁, hy₂⟩
    exact ⟨p.2 - y, by omega, p.1 - x, by omega, Prod.ext (by simp; omega) (by simp; omega)⟩

theorem not_outside_iff : ¬(w = 0 ∨ h = 0 ∨ ¬ rect x y w h ⊆ fb.area) ↔
    ¬(w = 0 ∨ h = 0 ∨ x + w > fb.width ∨ y + h > fb.height) := by
  rw [← rect_subset]
  have hempty : (rect x y w h).Nonempty ↔ ¬(w = 0 ∨ h = 0) := by
    constructor
    · rintro ⟨p, ⟨hx₁, hx₂⟩, hy₁, hy₂⟩
      omega
    · exact fun hsize => ⟨(x, y), ⟨by simp, by simp; omega⟩, by simp, by simp; omega⟩
  rw [hempty]
  tauto

theorem Ready.fillRect_drawn (hfb : Ready fb) (hpacked : Packed fb)
    (hcheck : ¬(w = 0 ∨ h = 0 ∨ x + w > fb.width ∨ y + h > fb.height)) (color : Rgb) :
    ∃ word fb', fb.encode color = .ok word ∧ fb.fillRect x y w h color = .ok (.ok (), fb') ∧
      Drawn (rect x y w h) (fun _ => word) fb fb' := by
  obtain ⟨word, hword⟩ := hfb.encode_ok color
  obtain ⟨fb', hfb', hdrawn⟩ := hfb.valid.fill_drawn hpacked hcheck
    (hpacked.encode_lt hfb.valid hword)
  refine ⟨word, fb', hword, ?_, hdrawn⟩
  rw [fillRect, if_neg hcheck, hword, ok_bind, hfb', ok_bind, pure_eq_ok]

/-- Likewise with the stores taken to be aligned. -/
theorem fillRect_all_or_nothing (hlayout : fromLayout layout = .ok (.ok fb)) (hnarrow : Narrow fb)
    (x y w h : Nat) (color : Rgb) : AllOrNothing fb x y w h color := by
  have hfb : Ready fb := ⟨Valid.of_fromLayout hlayout, hnarrow⟩
  have hpacked := Packed.of_fromLayout hlayout
  constructor
  · intro hout
    have hcheck := not_outside_iff.not.mp (not_not.mpr hout)
    rw [fillRect, if_pos (not_not.mp hcheck), pure_eq_ok]
  · intro hin
    have hcheck := not_outside_iff.mp hin
    obtain ⟨word, fb', hword, hfill, hdrawn⟩ := hfb.fillRect_drawn hpacked hcheck color
    refine ⟨word, fb', hword, hfill, fun p hp => ?_, hdrawn.on.frame⟩
    exact hdrawn.read hfb.valid hpacked ((rect_subset.mpr hcheck).2 hp) hp

theorem fillRect_all_or_nothing_screen : ∃ fb,
    fromLayout (FrameLayout.screen 8 4 40) = .ok (.ok fb) ∧
      AllOrNothing fb 0xFFFFFFFF 1 2 1 ⟨0xC0, 0xC0, 0xC0⟩ := by
  have hlayout : fromLayout (FrameLayout.screen 8 4 40) = .ok (.ok _) := rfl
  exact ⟨_, hlayout, fillRect_all_or_nothing hlayout ⟨by decide, by decide, by decide⟩ _ _ _ _ _⟩

end FerricK.FrameBuffer
