import FerricK.Framebuffer.Layout
import FerricK.Lib.Raster

namespace FerricK.FrameBuffer

open Rust Raster

def readRawPixel (fb : FrameBuffer) (x y : Nat) : Rust (Option Nat) :=
  if x ≥ fb.width ∨ y ≥ fb.height then return none
  else do
    let offset ← uadd 64 (← umul 64 y fb.pitch) (← umul 64 x fb.bytesPerPixel)
    let pixel ← forRange fb.bytesPerPixel (fun i pixel => do
      let byte := fb.surface (← uadd 64 offset i)
      return pixel ||| (← ushl 64 byte.toNat (8 * i))) 0
    return some pixel

structure Packed (fb : FrameBuffer) : Prop where
  bytes_pos : 0 < fb.bytesPerPixel
  bytes_le : fb.bytesPerPixel ≤ 8
  red : fb.red.shift + fb.red.size ≤ 8 * fb.bytesPerPixel
  green : fb.green.shift + fb.green.size ≤ 8 * fb.bytesPerPixel
  blue : fb.blue.shift + fb.blue.size ≤ 8 * fb.bytesPerPixel

def offset (fb : FrameBuffer) (p : Nat × Nat) : Nat := p.2 * fb.pitch + p.1 * fb.bytesPerPixel

def pixel (fb : FrameBuffer) (p : Nat × Nat) : Nat :=
  Bytes.ofLE (Bytes.load fb.surface (fb.offset p) fb.bytesPerPixel)

def area (fb : FrameBuffer) : Set (Nat × Nat) := {p | p.1 < fb.width ∧ p.2 < fb.height}

def Redrawn (fb fb' : FrameBuffer) : Prop := ∃ surface, fb' = { fb with surface := surface }

variable {fb fb' : FrameBuffer} {layout : FrameLayout} {m : ChannelMask} {p q : Nat × Nat}
  {x y word : Nat}

theorem mem_area : p ∈ fb.area ↔ ¬(p.1 ≥ fb.width ∨ p.2 ≥ fb.height) := by
  rw [not_or, not_le, not_le]
  rfl

theorem Redrawn.refl (fb : FrameBuffer) : Redrawn fb fb := ⟨fb.surface, rfl⟩

theorem Redrawn.ready (h : Redrawn fb fb') (hfb : fb.Ready) : fb'.Ready := by
  obtain ⟨surface, rfl⟩ := h
  exact hfb.setSurface surface

theorem Redrawn.packed (h : Redrawn fb fb') (hfb : fb.Packed) : fb'.Packed := by
  obtain ⟨surface, rfl⟩ := h
  exact ⟨hfb.bytes_pos, hfb.bytes_le, hfb.red, hfb.green, hfb.blue⟩

theorem Redrawn.trans {fb'' : FrameBuffer} (h : Redrawn fb fb') (h' : Redrawn fb' fb'') :
    Redrawn fb fb'' := by
  obtain ⟨surface, rfl⟩ := h
  obtain ⟨surface', rfl⟩ := h'
  exact ⟨surface', rfl⟩

theorem Redrawn.area (h : Redrawn fb fb') : fb'.area = fb.area := by
  obtain ⟨surface, rfl⟩ := h
  rfl

theorem Packed.of_fromLayout (h : fromLayout layout = .ok (.ok fb)) : Packed fb := by
  have hacc := fromLayout_cases h
  have hbits := hacc.bits
  have hbytes : 8 * fb.bytesPerPixel = layout.bpp.toNat := by
    rw [hacc.eq]
    simp only
    omega
  exact ⟨by omega, by omega, hbytes ▸ (mask_new_eq_ok hacc.red).2,
    hbytes ▸ (mask_new_eq_ok hacc.green).2, hbytes ▸ (mask_new_eq_ok hacc.blue).2⟩

theorem fromLayout_surface (h : fromLayout layout = .ok (.ok fb)) (surface : Nat → UInt8) :
    fromLayout { layout with surface := surface } = .ok (.ok { fb with surface := surface }) := by
  have hacc := fromLayout_cases h
  apply fromLayout_of_accepted
  refine ⟨hacc.bits, hacc.red, hacc.green, hacc.blue, hacc.disjoint, hacc.row, hacc.area, ?_⟩
  rw [hacc.eq]

theorem encodeChannel_lt {value : UInt8} (h : m.size < 64)
    (hword : encodeChannel m value = .ok word) : word < 2 ^ (m.shift + m.size) := by
  have hvalue : value.toNat ≤ 255 := Nat.le_of_lt_succ value.toNat_lt
  have hpos : 0 < 2 ^ m.size := Nat.two_pow_pos _
  rw [encodeChannel, ← bind_assoc, max_eq h, ok_bind] at hword
  obtain ⟨scaled, hscaled, hword⟩ := bind_eq_ok.mp hword
  obtain ⟨-, rfl⟩ := umul_eq_ok.mp hscaled
  unfold ushl at hword
  split at hword
  · cases hword
    have hmul : value.toNat * (2 ^ m.size - 1) ≤ 255 * (2 ^ m.size - 1) :=
      Nat.mul_le_mul_right _ hvalue
    have hquot : value.toNat * (2 ^ m.size - 1) / 255 < 2 ^ m.size := by omega
    calc value.toNat * (2 ^ m.size - 1) / 255 * 2 ^ m.shift % 2 ^ 64
        ≤ value.toNat * (2 ^ m.size - 1) / 255 * 2 ^ m.shift := Nat.mod_le ..
      _ < 2 ^ m.size * 2 ^ m.shift := Nat.mul_lt_mul_of_pos_right hquot (Nat.two_pow_pos _)
      _ = 2 ^ (m.shift + m.size) := by rw [Nat.pow_add, Nat.mul_comm]
  · cases hword

theorem Packed.encode_lt {color : Rgb} (h : Packed fb) (hfb : Valid fb)
    (hword : fb.encode color = .ok word) : word < 256 ^ fb.bytesPerPixel := by
  obtain ⟨r, hr, hword⟩ := bind_eq_ok.mp hword
  obtain ⟨g, hg, hword⟩ := bind_eq_ok.mp hword
  obtain ⟨b, hb, hword⟩ := bind_eq_ok.mp hword
  cases hword
  have hbits : ∀ {m : ChannelMask} {v : UInt8} {w : Nat}, m.Valid →
      m.shift + m.size ≤ 8 * fb.bytesPerPixel → encodeChannel m v = .ok w →
      w < 2 ^ (8 * fb.bytesPerPixel) := fun hm hfit hw =>
    (encodeChannel_lt hm.size_lt hw).trans_le (Nat.pow_le_pow_right (by omega) hfit)
  rw [show 256 = 2 ^ 8 by rfl, ← pow_mul]
  exact Nat.or_lt_two_pow
    (Nat.or_lt_two_pow (hbits hfb.red h.red hr) (hbits hfb.green h.green hg))
    (hbits hfb.blue h.blue hb)

theorem Valid.offset_le (h : Valid fb) (hp : p ∈ fb.area) :
    fb.offset p + fb.bytesPerPixel ≤ (p.2 + 1) * fb.pitch := by
  have hrow : (p.1 + 1) * fb.bytesPerPixel ≤ fb.pitch :=
    (Nat.mul_le_mul_right _ hp.1).trans h.row_le
  rw [Nat.succ_mul] at hrow ⊢
  rw [offset]
  omega

theorem Valid.offset_lt (h : Valid fb) (hp : p ∈ fb.area) :
    fb.offset p + fb.bytesPerPixel < 2 ^ 64 := by
  have hend := h.offset_le hp
  have harea : (p.2 + 1) * fb.pitch ≤ fb.height * fb.pitch := Nat.mul_le_mul_right _ hp.2
  have hlt := h.area_lt
  rw [Nat.mul_comm] at hlt
  omega

theorem Valid.offset_disjoint (h : Valid fb) (hp : p ∈ fb.area) (hq : q ∈ fb.area) (hne : p ≠ q) :
    fb.offset p + fb.bytesPerPixel ≤ fb.offset q ∨
      fb.offset q + fb.bytesPerPixel ≤ fb.offset p := by
  wlog hle : p.2 < q.2 ∨ p.2 = q.2 ∧ p.1 < q.1 generalizing p q with hsymm
  · refine (hsymm hq hp hne.symm ?_).symm
    have hcoords : ¬(p.1 = q.1 ∧ p.2 = q.2) := fun heq => hne (Prod.ext heq.1 heq.2)
    omega
  left
  obtain hrow | ⟨hrow, hcol⟩ := hle
  · have hend := h.offset_le hp
    have hstart : (p.2 + 1) * fb.pitch ≤ q.2 * fb.pitch := Nat.mul_le_mul_right _ hrow
    simp only [offset] at hend ⊢
    omega
  · have hstart : (p.1 + 1) * fb.bytesPerPixel ≤ q.1 * fb.bytesPerPixel :=
      Nat.mul_le_mul_right _ hcol
    rw [Nat.succ_mul] at hstart
    simp only [offset, hrow]
    omega

theorem Valid.readRawPixel_eq (h : Valid fb) (hpacked : Packed fb) (hp : p ∈ fb.area) :
    fb.readRawPixel p.1 p.2 = .ok (some (fb.pixel p)) := by
  have hlt := h.offset_lt hp
  have hbytes := hpacked.bytes_le
  have hloop := forRange_rule
    (fun i word => word = Bytes.ofLE (Bytes.load fb.surface (fb.offset p) i))
    (f := fun i pixel => do
      let byte := fb.surface (← uadd 64 (fb.offset p) i)
      return pixel ||| (← ushl 64 byte.toNat (8 * i)))
    (n := fb.bytesPerPixel) (s := 0) rfl ?_
  · obtain ⟨word, hword, rfl⟩ := hloop
    rw [offset] at hlt
    rw [readRawPixel, if_neg (mem_area.mp hp), umul_of_lt (by omega), ok_bind,
      umul_of_lt (by omega), ok_bind, uadd_of_lt (by omega), ok_bind]
    simp only [offset] at hword
    rw [hword, ok_bind, pure_eq_ok]
    rfl
  · rintro i hi _ rfl
    have hbyte := (fb.surface (fb.offset p + i)).toNat_lt
    have hword := Bytes.ofLE_concat_or (Bytes.load fb.surface (fb.offset p) i)
      (fb.surface (fb.offset p + i))
    rw [← Bytes.load_concat, Bytes.length_load] at hword
    have hshift : (fb.surface (fb.offset p + i)).toNat * 2 ^ (8 * i) < 2 ^ 64 := by
      calc (fb.surface (fb.offset p + i)).toNat * 2 ^ (8 * i)
          < 2 ^ 8 * 2 ^ (8 * i) := Nat.mul_lt_mul_of_pos_right hbyte (Nat.two_pow_pos _)
        _ = 2 ^ (8 + 8 * i) := (Nat.pow_add ..).symm
        _ ≤ 2 ^ 64 := Nat.pow_le_pow_right (by omega) (by omega)
    refine ⟨_, ?_, hword.symm⟩
    rw [uadd_of_lt (by omega), ok_bind]
    simp only
    rw [ushl_of_lt (by omega), ok_bind, pure_eq_ok, Nat.mod_eq_of_lt hshift]

theorem storeWidth (surface : Nat → UInt8) (offset word n : Nat) : n ≤ 8 →
    (match n with
      | 8 => Bytes.store surface offset (Bytes.toLE 8 word)
      | 4 => Bytes.store surface offset (Bytes.toLE 4 word)
      | 2 => Bytes.store surface offset (Bytes.toLE 2 word)
      | n => Bytes.store surface offset ((Bytes.toLE 8 word).take n)) =
      Bytes.store surface offset (Bytes.toLE n word) := by
  intro h
  split
  · rfl
  · rfl
  · rfl
  · rw [Bytes.take_toLE h]

theorem Valid.writeWord_eq (h : Valid fb) (hpacked : Packed fb) (hp : p ∈ fb.area) (word : Nat) :
    fb.writeWord p.1 p.2 word = .ok (.ok (), { fb with
      surface := Bytes.store fb.surface (fb.offset p) (Bytes.toLE fb.bytesPerPixel word) }) := by
  have hlt := h.offset_lt hp
  rw [offset] at hlt
  have hstore := storeWidth fb.surface (fb.offset p) word _ hpacked.bytes_le
  rw [writeWord, if_neg (mem_area.mp hp), writeUnchecked, umul_of_lt (by omega), ok_bind,
    umul_of_lt (by omega), ok_bind, uadd_of_lt (by omega), ok_bind]
  exact congrArg (fun surface => Except.ok (Except.ok (), { fb with surface := surface })) hstore

theorem Valid.writeWord_painted (h : Valid fb) (hpacked : Packed fb) (hp : p ∈ fb.area)
    {w : Nat × Nat → Nat} (hw : w p < 256 ^ fb.bytesPerPixel) :
    ∃ fb', fb.writeWord p.1 p.2 (w p) = .ok (.ok (), fb') ∧ Redrawn fb fb' ∧
      Painted fb.area {p} w fb.pixel fb'.pixel := by
  let bytes := Bytes.toLE fb.bytesPerPixel (w p)
  have hlen : bytes.length = fb.bytesPerPixel := Bytes.length_toLE ..
  refine ⟨_, h.writeWord_eq hpacked hp (w p), ⟨_, rfl⟩, ?_, ?_⟩
  · rintro q hq rfl
    have hload : Bytes.load (Bytes.store fb.surface (fb.offset q) bytes) (fb.offset q)
        bytes.length = bytes := Bytes.load_store (Bytes.nodup_span_nat (fb.offset q) _)
    rw [hlen] at hload
    exact (congrArg Bytes.ofLE hload).trans (Bytes.ofLE_toLE hw)
  · intro q hq hne
    have hdisjoint := h.offset_disjoint hp hq (Ne.symm hne)
    have hload : Bytes.load (Bytes.store fb.surface (fb.offset p) bytes) (fb.offset q)
        fb.bytesPerPixel = Bytes.load fb.surface (fb.offset q) fb.bytesPerPixel := by
      apply Bytes.load_congr
      intro x hx
      apply Bytes.store_of_not_mem
      rw [hlen, Bytes.mem_span_nat]
      have hx := Bytes.mem_span_nat.mp hx
      omega
    exact congrArg Bytes.ofLE hload

end FerricK.FrameBuffer
