import FerricK.Framebuffer.Bounds

namespace FerricK.FrameBuffer

open Rust

structure VolatileStore where
  addr : Nat
  bytes : List UInt8

/-- One store for pixels of two, four or eight bytes, and one for each byte of any other. -/
def storesAt (fb : FrameBuffer) (offset pixel : Nat) : List VolatileStore :=
  match fb.bytesPerPixel with
  | 8 => [⟨fb.ptr + offset, Bytes.toLE 8 pixel⟩]
  | 4 => [⟨fb.ptr + offset, Bytes.toLE 4 pixel⟩]
  | 2 => [⟨fb.ptr + offset, Bytes.toLE 2 pixel⟩]
  | n => ((Bytes.toLE 8 pixel).take n).zipIdx.map fun (b, i) => ⟨fb.ptr + (offset + i), [b]⟩

def volatileStores (fb : FrameBuffer) (x y pixel : Nat) : Rust (List VolatileStore) := do
  let offset ← uadd 64 (← umul 64 y fb.pitch) (← umul 64 x fb.bytesPerPixel)
  return fb.storesAt offset pixel

def perform (fb : FrameBuffer) (stores : List VolatileStore) : FrameBuffer :=
  { fb with
    surface := stores.foldl (fun m st => Bytes.store m (st.addr - fb.ptr) st.bytes) fb.surface }

def Wide (n : Nat) : Prop := n = 2 ∨ n = 4 ∨ n = 8

def StoresAligned (fb : FrameBuffer) : Prop :=
  ∀ p ∈ fb.area, ∀ pixel, ∃ stores, fb.volatileStores p.1 p.2 pixel = .ok stores ∧
    fb.writeUnchecked p.1 p.2 pixel = .ok (fb.perform stores) ∧
    ∀ st ∈ stores, st.bytes.length ∣ st.addr

/-- Pixels of two, four or eight bytes start at a multiple of that, and so do the rows. -/
def AlignedLayout (layout : FrameLayout) : Prop :=
  Wide (layout.bpp.toNat / 8) → layout.width.toNat = 0 ∨ layout.height.toNat = 0 ∨
    layout.bpp.toNat / 8 ∣ layout.ptr.toNat ∧
      (layout.height.toNat = 1 ∨ layout.bpp.toNat / 8 ∣ layout.pitch.toNat)

variable {fb : FrameBuffer} {layout : FrameLayout} {p : Nat × Nat} {x y pixel n : Nat}
  {stores : List VolatileStore}

theorem perform_storesAt (fb : FrameBuffer) (offset pixel : Nat) :
    (fb.perform (fb.storesAt offset pixel)).surface = match fb.bytesPerPixel with
      | 8 => Bytes.store fb.surface offset (Bytes.toLE 8 pixel)
      | 4 => Bytes.store fb.surface offset (Bytes.toLE 4 pixel)
      | 2 => Bytes.store fb.surface offset (Bytes.toLE 2 pixel)
      | n => Bytes.store fb.surface offset ((Bytes.toLE 8 pixel).take n) := by
  unfold perform storesAt
  split
  · simp only [List.foldl_cons, List.foldl_nil, Nat.add_sub_cancel_left]
  · simp only [List.foldl_cons, List.foldl_nil, Nat.add_sub_cancel_left]
  · simp only [List.foldl_cons, List.foldl_nil, Nat.add_sub_cancel_left]
  · simp only [List.foldl_map, Nat.add_sub_cancel_left]
    exact Bytes.foldl_store fb.surface offset 0 _

theorem writeUnchecked_eq_perform (fb : FrameBuffer) (x y pixel : Nat) :
    fb.writeUnchecked x y pixel = (fb.volatileStores x y pixel).map fb.perform := by
  unfold writeUnchecked volatileStores
  cases umul 64 y fb.pitch with
  | error e => rfl
  | ok row =>
  cases umul 64 x fb.bytesPerPixel with
  | error e => rfl
  | ok col =>
  simp only [ok_bind]
  cases uadd 64 row col with
  | error e => rfl
  | ok offset =>
  have hsurface := perform_storesAt fb offset pixel
  exact congrArg (fun surface => Except.ok { fb with surface := surface }) hsurface.symm

theorem Valid.volatileStores_eq (hfb : Valid fb) (hp : p ∈ fb.area) (pixel : Nat) :
    fb.volatileStores p.1 p.2 pixel = .ok (fb.storesAt (fb.offset p) pixel) := by
  have hoffset := hfb.offset_ok hp
  obtain ⟨row, hrow, hoffset⟩ := bind_eq_ok.mp hoffset
  obtain ⟨col, hcol, hoffset⟩ := bind_eq_ok.mp hoffset
  rw [volatileStores, hrow, ok_bind, hcol, ok_bind, hoffset, ok_bind, pure_eq_ok]

theorem storesAt_aligned (fb : FrameBuffer) (offset pixel : Nat) :
    (∀ st ∈ fb.storesAt offset pixel, st.bytes.length ∣ st.addr) ↔
      (Wide fb.bytesPerPixel → fb.bytesPerPixel ∣ fb.ptr + offset) := by
  unfold storesAt
  split
  · next hn => simp [hn, Wide]
  · next hn => simp [hn, Wide]
  · next hn => simp [hn, Wide]
  · next n h₈ h₄ h₂ =>
    constructor
    · rintro - (hn | hn | hn)
      · exact absurd hn h₂
      · exact absurd hn h₄
      · exact absurd hn h₈
    · intro _ st hst
      obtain ⟨⟨b, i⟩, -, rfl⟩ := List.mem_map.mp hst
      exact Nat.one_dvd _

/-- The first pixels of the first two rows decide for all. -/
theorem forall_dvd_iff (fb : FrameBuffer) :
    (∀ p ∈ fb.area, fb.bytesPerPixel ∣ fb.ptr + fb.offset p) ↔
    fb.width = 0 ∨ fb.height = 0 ∨
      fb.bytesPerPixel ∣ fb.ptr ∧ (fb.height = 1 ∨ fb.bytesPerPixel ∣ fb.pitch) := by
  constructor
  · intro hall
    by_cases hempty : fb.width = 0 ∨ fb.height = 0
    · tauto
    have hfirst := hall (0, 0) ⟨show 0 < fb.width by omega, show 0 < fb.height by omega⟩
    simp only [offset, Nat.zero_mul, Nat.add_zero] at hfirst
    refine Or.inr (Or.inr ⟨hfirst, ?_⟩)
    by_cases hone : fb.height = 1
    · exact Or.inl hone
    have hsecond := hall (0, 1) ⟨show 0 < fb.width by omega, show 1 < fb.height by omega⟩
    simp only [offset, Nat.zero_mul, Nat.add_zero, Nat.one_mul] at hsecond
    exact Or.inr ((Nat.dvd_add_right hfirst).mp hsecond)
  · rintro hcond ⟨x, y⟩ ⟨hx, hy⟩
    simp only at hx hy
    obtain ⟨hptr, hpitch⟩ := hcond.resolve_left (by omega) |>.resolve_left (by omega)
    have hrow : fb.bytesPerPixel ∣ y * fb.pitch := by
      rcases hpitch with hone | hpitch
      · rw [show y = 0 by omega, Nat.zero_mul]
        exact Nat.dvd_zero _
      · exact Nat.dvd_mul_left_of_dvd hpitch y
    exact Nat.dvd_add hptr (Nat.dvd_add hrow (Nat.dvd_mul_left _ _))

/-- Wide stores are aligned exactly where the layout is. -/
theorem stores_aligned_iff (h : fromLayout layout = .ok (.ok fb)) :
    StoresAligned fb ↔ AlignedLayout layout := by
  have hacc := fromLayout_cases h
  have hfb := Valid.of_fromLayout h
  have hlayout : AlignedLayout layout ↔ (Wide fb.bytesPerPixel → fb.width = 0 ∨ fb.height = 0 ∨
      fb.bytesPerPixel ∣ fb.ptr ∧ (fb.height = 1 ∨ fb.bytesPerPixel ∣ fb.pitch)) := by
    rw [hacc.eq]
    exact Iff.rfl
  rw [hlayout, ← forall_dvd_iff]
  constructor
  · intro haligned hwide p hp
    obtain ⟨stores, hstores, -, hall⟩ := haligned p hp 0
    rw [hfb.volatileStores_eq hp] at hstores
    cases hstores
    exact (storesAt_aligned fb _ 0).mp hall hwide
  · intro hcond p hp pixel
    have hstores := hfb.volatileStores_eq hp pixel
    refine ⟨_, hstores, ?_, (storesAt_aligned fb _ pixel).mpr fun hwide => hcond hwide p hp⟩
    rw [writeUnchecked_eq_perform, hstores]
    rfl

theorem stores_aligned_screen : ∃ fb, fromLayout (FrameLayout.screen 8 4 40) = .ok (.ok fb) ∧
    StoresAligned fb := by
  have hlayout : fromLayout (FrameLayout.screen 8 4 40) = .ok (.ok _) := rfl
  exact ⟨_, hlayout, (stores_aligned_iff hlayout).mpr fun _ => by decide⟩

def oddPitch : FrameLayout := { FrameLayout.screen 2 2 10 with ptr := 0xFFFF8000FD000000 }

theorem not_stores_aligned : ∃ fb, fromLayout oddPitch = .ok (.ok fb) ∧
    fb.volatileStores 0 1 0 = .ok [⟨0xFFFF8000FD00000A, [0, 0, 0, 0]⟩] ∧ ¬StoresAligned fb := by
  refine ⟨_, rfl, rfl, fun haligned => ?_⟩
  obtain ⟨stores, hstores, -, hall⟩ := haligned (0, 1) (show 0 < 2 ∧ 1 < 2 by decide) 0
  cases hstores
  exact absurd (hall _ List.mem_cons_self) (by decide)

end FerricK.FrameBuffer
