import FerricK.Framebuffer.Defs
import Mathlib.Algebra.Order.Group.Nat

namespace FerricK

open Rust

structure ChannelMask.Valid (m : ChannelMask) : Prop where
  size_pos : 0 < m.size
  size_lt : m.size < 64
  fits : m.shift + m.size ≤ 64

namespace FrameBuffer

structure Valid (fb : FrameBuffer) : Prop where
  width_lt : fb.width < 2 ^ 32
  height_lt : fb.height < 2 ^ 32
  row_le : fb.width * fb.bytesPerPixel ≤ fb.pitch
  area_lt : fb.pitch * fb.height < 2 ^ 64
  red : fb.red.Valid
  green : fb.green.Valid
  blue : fb.blue.Valid

structure Narrow (fb : FrameBuffer) : Prop where
  red : fb.red.size ≤ 56
  green : fb.green.size ≤ 56
  blue : fb.blue.size ≤ 56

structure Accepted (layout : FrameLayout) (fb : FrameBuffer) : Prop where
  bits : 0 < layout.bpp.toNat ∧ layout.bpp.toNat % 8 = 0 ∧ layout.bpp.toNat ≤ 64
  red : ChannelMask.new layout.redSize layout.redShift layout.bpp = .ok fb.red
  green : ChannelMask.new layout.greenSize layout.greenShift layout.bpp = .ok fb.green
  blue : ChannelMask.new layout.blueSize layout.blueShift layout.bpp = .ok fb.blue
  disjoint : ChannelMask.allDisjoint fb.red fb.green fb.blue = .ok true
  row : layout.width.toNat * (layout.bpp.toNat / 8) ≤ layout.pitch.toNat
  area : layout.pitch.toNat * layout.height.toNat < 2 ^ 64
  eq : fb = ⟨layout.ptr.toNat, layout.surface, layout.width.toNat, layout.height.toNat,
    layout.pitch.toNat, layout.bpp.toNat / 8, fb.red, fb.green, fb.blue⟩

structure Ready (fb : FrameBuffer) : Prop where
  valid : Valid fb
  narrow : Narrow fb

variable {fb : FrameBuffer} {layout : FrameLayout} {m a b : ChannelMask} {size shift : UInt8}
  {bpp : UInt16} {x y : Nat}

theorem mask_new_eq_ok (h : ChannelMask.new size shift bpp = .ok m) :
    0 < m.size ∧ m.shift + m.size ≤ bpp.toNat := by
  unfold ChannelMask.new at h
  split at h
  · exact nomatch h
  next hfits =>
  simp only [Except.ok.injEq] at h
  subst h
  simp only [not_or, ← UInt8.toNat_inj, UInt8.toNat_zero] at hfits ⊢
  omega

theorem bitMask_eq_ok {v : Nat} (h : m.bitMask = .ok v) : m.size < 64 := by
  obtain ⟨_, hmul, -⟩ := bind_eq_ok.mp h
  by_contra hsize
  rw [ushl, if_neg hsize] at hmul
  exact nomatch hmul

theorem disjoint_eq_ok {v : Bool} (h : a.disjoint b = .ok v) : a.size < 64 ∧ b.size < 64 := by
  obtain ⟨_, ha, h⟩ := bind_eq_ok.mp h
  obtain ⟨_, hb, -⟩ := bind_eq_ok.mp h
  exact ⟨bitMask_eq_ok ha, bitMask_eq_ok hb⟩

theorem allDisjoint_eq_ok {c : ChannelMask} (h : ChannelMask.allDisjoint a b c = .ok true) :
    a.size < 64 ∧ b.size < 64 ∧ c.size < 64 := by
  obtain ⟨first, hab, h⟩ := bind_eq_ok.mp h
  split at h
  · obtain ⟨second, hbc, -⟩ := bind_eq_ok.mp h
    exact ⟨(disjoint_eq_ok hab).1, disjoint_eq_ok hbc⟩
  · simp at h

theorem fromLayout_cases (h : fromLayout layout = .ok (.ok fb)) : Accepted layout fb := by
  unfold fromLayout at h
  simp only at h
  split at h
  · exact nomatch h
  next hbpp =>
  split at h
  · next red green blue hred hgreen hblue =>
    obtain ⟨disjoint, hdisjoint, h⟩ := bind_eq_ok.mp h
    obtain ⟨row, hrow, h⟩ := bind_eq_ok.mp h
    obtain ⟨-, rfl⟩ := umul_eq_ok.mp hrow
    split at h
    · exact nomatch h
    next hok =>
    simp only [pure_eq_ok, Except.ok.injEq] at h
    subst h
    simp only [not_or, Bool.not_eq_true', Bool.not_eq_false, not_lt] at hok
    obtain ⟨rfl, hpitch, harea⟩ := hok
    refine ⟨by omega, hred, hgreen, hblue, hdisjoint, hpitch, ?_, rfl⟩
    unfold checkedMul at harea
    by_contra hge
    exact harea (by rw [if_neg hge]; rfl)
  all_goals exact nomatch h

theorem fromLayout_of_accepted (h : Accepted layout fb) : fromLayout layout = .ok (.ok fb) := by
  have hbits := h.bits
  have hlt := layout.pitch.toNat_lt
  have hrow := h.row
  have harea : checkedMul 64 layout.pitch.toNat layout.height.toNat =
    some (layout.pitch.toNat * layout.height.toNat) := if_pos h.area
  unfold fromLayout
  simp only [h.red, h.green, h.blue]
  rw [if_neg (by omega), h.disjoint, ok_bind, umul_of_lt (by omega), ok_bind, harea,
    if_neg (by simp [hrow]), h.eq]
  rfl

theorem Valid.of_fromLayout (h : fromLayout layout = .ok (.ok fb)) : Valid fb := by
  have hacc := fromLayout_cases h
  have hbits := hacc.bits
  obtain ⟨hred₁, hgreen₁, hblue₁⟩ := allDisjoint_eq_ok hacc.disjoint
  obtain ⟨hred₀, hred₂⟩ := mask_new_eq_ok hacc.red
  obtain ⟨hgreen₀, hgreen₂⟩ := mask_new_eq_ok hacc.green
  obtain ⟨hblue₀, hblue₂⟩ := mask_new_eq_ok hacc.blue
  have hwidth : fb.width < 2 ^ 32 := by
    rw [hacc.eq]
    exact layout.width.toNat_lt
  have hheight : fb.height < 2 ^ 32 := by
    rw [hacc.eq]
    exact layout.height.toNat_lt
  refine ⟨hwidth, hheight, ?_, ?_, ⟨hred₀, hred₁, by omega⟩, ⟨hgreen₀, hgreen₁, by omega⟩,
    ⟨hblue₀, hblue₁, by omega⟩⟩ <;> rw [hacc.eq]
  · exact hacc.row
  · exact hacc.area

theorem max_steps (h : m.size < 64) :
    ushl 64 1 m.size = .ok (2 ^ m.size) ∧ usub (2 ^ m.size) 1 = .ok (2 ^ m.size - 1) := by
  have hlt : 2 ^ m.size < 2 ^ 64 := Nat.pow_lt_pow_right (by omega) h
  refine ⟨?_, usub_of_le (Nat.two_pow_pos _)⟩
  rw [ushl_of_lt h, Nat.one_mul, Nat.mod_eq_of_lt hlt]

theorem max_eq (h : m.size < 64) :
    (ushl 64 1 m.size >>= fun v => usub v 1) = .ok (2 ^ m.size - 1) := by
  rw [(max_steps h).1, ok_bind, (max_steps h).2]

theorem encodeChannel_eq (h : m.Valid) (hnarrow : m.size ≤ 56) (value : UInt8) :
    encodeChannel m value = .ok (value.toNat * (2 ^ m.size - 1) / 255 * 2 ^ m.shift % 2 ^ 64) := by
  have hvalue : value.toNat ≤ 255 := Nat.le_of_lt_succ value.toNat_lt
  have hmax : 2 ^ m.size ≤ 2 ^ 56 := Nat.pow_le_pow_right (by omega) hnarrow
  have hmul : value.toNat * (2 ^ m.size - 1) ≤ 255 * (2 ^ 56 - 1) :=
    Nat.mul_le_mul hvalue (by omega)
  have hshift := h.fits
  have hpos := h.size_pos
  rw [encodeChannel, ← bind_assoc, max_eq h.size_lt, ok_bind, umul_of_lt (by omega), ok_bind,
    ushl_of_lt (by omega)]

theorem encodeChannel_ok (h : m.Valid) (hnarrow : m.size ≤ 56) (value : UInt8) :
    ∃ w, encodeChannel m value = .ok w :=
  ⟨_, encodeChannel_eq h hnarrow value⟩

theorem encodeChannel_wide (h : m.Valid) (hwide : 56 < m.size) :
    encodeChannel m 0xC0 = .error .overflow := by
  have hmax : 2 ^ 57 ≤ 2 ^ m.size := Nat.pow_le_pow_right (by omega) hwide
  have hmul : 0xC0 * (2 ^ 57 - 1) ≤ 0xC0 * (2 ^ m.size - 1) := Nat.mul_le_mul_left _ (by omega)
  rw [encodeChannel, ← bind_assoc, max_eq h.size_lt, ok_bind, umul, if_neg (by
    show ¬0xC0 * (2 ^ m.size - 1) < 2 ^ 64
    omega), error_bind]

theorem Ready.encode_ok (h : Ready fb) (color : Rgb) : ∃ w, fb.encode color = .ok w := by
  obtain ⟨r, hr⟩ := encodeChannel_ok h.valid.red h.narrow.red color.r
  obtain ⟨g, hg⟩ := encodeChannel_ok h.valid.green h.narrow.green color.g
  obtain ⟨b, hb⟩ := encodeChannel_ok h.valid.blue h.narrow.blue color.b
  exact ⟨r ||| g ||| b, by rw [encode, hr, ok_bind, hg, ok_bind, hb, ok_bind, pure_eq_ok]⟩

theorem Valid.narrow_of_encode {w : Nat} (h : Valid fb)
    (hw : fb.encode ⟨0xC0, 0xC0, 0xC0⟩ = .ok w) : Narrow fb := by
  obtain ⟨r, hr, hw⟩ := bind_eq_ok.mp hw
  obtain ⟨g, hg, hw⟩ := bind_eq_ok.mp hw
  obtain ⟨b, hb, -⟩ := bind_eq_ok.mp hw
  have hnarrow : ∀ {m : ChannelMask} {v : Nat}, m.Valid → encodeChannel m 0xC0 = .ok v →
      m.size ≤ 56 := by
    intro m v hm hv
    by_contra hwide
    rw [encodeChannel_wide hm (by omega)] at hv
    exact nomatch hv
  exact ⟨hnarrow h.red hr, hnarrow h.green hg, hnarrow h.blue hb⟩

theorem Valid.writeWord_ok (h : Valid fb) (x y word : Nat) :
    ∃ r surface, fb.writeWord x y word = .ok (r, { fb with surface := surface }) := by
  unfold writeWord
  split
  · exact ⟨_, fb.surface, rfl⟩
  next hin =>
  have hrow : x * fb.bytesPerPixel ≤ fb.pitch :=
    (Nat.mul_le_mul_right _ (by omega)).trans h.row_le
  have harea : (y + 1) * fb.pitch ≤ fb.height * fb.pitch := Nat.mul_le_mul_right _ (by omega)
  have hlt := h.area_lt
  rw [Nat.succ_mul, Nat.mul_comm fb.height] at harea
  rw [writeUnchecked, umul_of_lt (by omega), ok_bind, umul_of_lt (by omega), ok_bind,
    uadd_of_lt (by omega), ok_bind]
  exact ⟨_, _, rfl⟩

theorem Ready.setSurface (h : Ready fb) (surface : Nat → UInt8) :
    Ready { fb with surface := surface } :=
  ⟨⟨h.valid.width_lt, h.valid.height_lt, h.valid.row_le, h.valid.area_lt, h.valid.red,
    h.valid.green, h.valid.blue⟩, ⟨h.narrow.red, h.narrow.green, h.narrow.blue⟩⟩

end FrameBuffer

def FrameLayout.screen (width height : UInt32) (pitch : UInt64) : FrameLayout :=
  ⟨0, fun _ => 0, width, height, pitch, 32, 8, 16, 8, 8, 8, 0⟩

end FerricK
