import FerricK.Lib.Rust

namespace FerricK

open Rust

structure PremultipliedRgbaColor where
  red : UInt8
  green : UInt8
  blue : UInt8
  alpha : UInt8
  deriving DecidableEq, Repr

structure FbPixel where
  red : UInt8
  green : UInt8
  blue : UInt8
  alpha : UInt8
  deriving DecidableEq, Repr

def PremultipliedRgbaColor.Premultiplied (c : PremultipliedRgbaColor) : Prop :=
  c.red ≤ c.alpha ∧ c.green ≤ c.alpha ∧ c.blue ≤ c.alpha

instance (c : PremultipliedRgbaColor) : Decidable c.Premultiplied :=
  inferInstanceAs (Decidable (_ ∧ _))

namespace FbPixel

def Premultiplied (p : FbPixel) : Prop := p.red ≤ p.alpha ∧ p.green ≤ p.alpha ∧ p.blue ≤ p.alpha

def blendChannel (below : UInt8) (a : Nat) (color : UInt8) : Rust UInt8 := do
  let kept ← umul 16 below.toNat a
  return UInt8.ofNat (← uadd 8 (UInt8.ofNat (kept / 255)).toNat color.toNat)

def blendAlpha (alpha color : UInt8) : Rust UInt8 := do
  let sum ← uadd 16 alpha.toNat color.toNat
  return UInt8.ofNat (← usub sum ((← umul 16 alpha.toNat color.toNat) / 255))

def blend (p : FbPixel) (color : PremultipliedRgbaColor) : Rust FbPixel := do
  let a ← usub 255 color.alpha.toNat
  let red ← blendChannel p.red a color.red
  let green ← blendChannel p.green a color.green
  let blue ← blendChannel p.blue a color.blue
  return { red, green, blue, alpha := ← blendAlpha p.alpha color.alpha }

def blendAll (p : FbPixel) (colors : List PremultipliedRgbaColor) : Rust FbPixel :=
  forEach colors (fun color p => p.blend color) p

structure Blended (p : FbPixel) (color : PremultipliedRgbaColor) (p' : FbPixel) : Prop where
  premultiplied : p.Premultiplied → p'.Premultiplied
  alpha_le : p.alpha ≤ p'.alpha
  opaque_color : color.alpha = 255 → p' = ⟨color.red, color.green, color.blue, color.alpha⟩
  transparent : color.alpha = 0 → p' = p

structure InRange (p : FbPixel) (colors : List PremultipliedRgbaColor) : Prop where
  returns : ∃ p', p.blendAll colors = .ok p'
  steps : ∀ before color after, colors = before ++ color :: after → ∃ q q',
    p.blendAll before = .ok q ∧ q.blend color = .ok q' ∧ Blended q color q' ∧
      (p.Premultiplied → q'.Premultiplied)

variable {p p' : FbPixel} {color : PremultipliedRgbaColor} {below above k : UInt8}

theorem floors_le (x : Nat) {k : Nat} (hk : k ≤ 255) :
    x * (255 - k) / 255 + x * k / 255 ≤ x := by
  have hparts : x * (255 - k) + x * k = x * 255 := by
    rw [← Nat.mul_add, Nat.sub_add_cancel hk]
  omega

theorem sum_le {x k : Nat} (hx : x ≤ 255) (hk : k ≤ 255) : x + k ≤ 255 + x * k / 255 := by
  obtain ⟨u, hu⟩ := Nat.exists_eq_add_of_le hx
  have hparts : x * k + u * k = 255 * k := by rw [← Nat.add_mul, ← hu]
  have hmul : u * k ≤ u * 255 := Nat.mul_le_mul_left _ hk
  omega

def channelAfter (below k above : UInt8) : Nat := below.toNat * (255 - k.toNat) / 255 + above.toNat
def alphaAfter (x k : UInt8) : Nat := x.toNat + k.toNat - x.toNat * k.toNat / 255

theorem toNat_mul_le (x : UInt8) (n : Nat) : x.toNat * n ≤ 255 * n :=
  Nat.mul_le_mul_right n (Nat.le_of_lt_succ x.toNat_lt)

theorem channelAfter_lt (below : UInt8) (h : above ≤ k) : channelAfter below k above < 256 := by
  have habove : above.toNat ≤ k.toNat := h
  have hk := k.toNat_lt
  have hkept := toNat_mul_le below (255 - k.toNat)
  rw [channelAfter]
  omega

theorem alphaAfter_lt (x k : UInt8) : alphaAfter x k < 256 := by
  have hx := x.toNat_lt
  have hk := k.toNat_lt
  have hsum := sum_le (x := x.toNat) (k := k.toNat) (by omega) (by omega)
  rw [alphaAfter]
  omega

theorem blendChannel_eq (below : UInt8) (h : above ≤ k) :
    blendChannel below (255 - k.toNat) above = .ok (UInt8.ofNat (channelAfter below k above)) := by
  have hkept := toNat_mul_le below (255 - k.toNat)
  have hlt := channelAfter_lt below h
  have hcast : (UInt8.ofNat (below.toNat * (255 - k.toNat) / 255)).toNat =
      below.toNat * (255 - k.toNat) / 255 := by
    rw [UInt8.toNat_ofNat', Nat.mod_eq_of_lt (by omega)]
  rw [blendChannel, umul_of_lt (by omega), ok_bind, hcast, uadd_of_lt hlt, ok_bind, pure_eq_ok]
  rfl

theorem blendAlpha_eq (x k : UInt8) : blendAlpha x k = .ok (UInt8.ofNat (alphaAfter x k)) := by
  have hx := x.toNat_lt
  have hk := k.toNat_lt
  have hmul := toNat_mul_le x k.toNat
  rw [blendAlpha, uadd_of_lt (by omega), ok_bind, umul_of_lt (by omega), ok_bind,
    usub_of_le (by omega), ok_bind, pure_eq_ok]
  rfl

theorem channelAfter_le {x : UInt8} (hbelow : below ≤ x) (h : above ≤ k) :
    channelAfter below k above ≤ alphaAfter x k := by
  have hbelow : below.toNat ≤ x.toNat := hbelow
  have habove : above.toNat ≤ k.toNat := h
  have hk := k.toNat_lt
  have hkept : below.toNat * (255 - k.toNat) / 255 ≤ x.toNat * (255 - k.toNat) / 255 :=
    Nat.div_le_div_right (Nat.mul_le_mul_right _ hbelow)
  have hfloors := floors_le x.toNat (k := k.toNat) (by omega)
  rw [channelAfter, alphaAfter]
  omega

theorem ofNat_le_ofNat {a b : Nat} (h : a ≤ b) (hb : b < 256) : UInt8.ofNat a ≤ UInt8.ofNat b := by
  rw [UInt8.le_iff_toNat_le, UInt8.toNat_ofNat', UInt8.toNat_ofNat', Nat.mod_eq_of_lt (by omega),
    Nat.mod_eq_of_lt hb]
  exact h

theorem le_alphaAfter (x k : UInt8) : x ≤ UInt8.ofNat (alphaAfter x k) := by
  have hx := x.toNat_lt
  have hlt := alphaAfter_lt x k
  have hmul := toNat_mul_le x k.toNat
  rw [UInt8.le_iff_toNat_le, UInt8.toNat_ofNat', Nat.mod_eq_of_lt hlt, alphaAfter]
  omega

theorem blend_eq (p : FbPixel) (h : color.Premultiplied) : p.blend color = .ok
    { red := UInt8.ofNat (channelAfter p.red color.alpha color.red)
      green := UInt8.ofNat (channelAfter p.green color.alpha color.green)
      blue := UInt8.ofNat (channelAfter p.blue color.alpha color.blue)
      alpha := UInt8.ofNat (alphaAfter p.alpha color.alpha) } := by
  have halpha := color.alpha.toNat_lt
  obtain ⟨hred, hgreen, hblue⟩ := h
  rw [blend, usub_of_le (by omega), ok_bind, blendChannel_eq _ hred, ok_bind,
    blendChannel_eq _ hgreen, ok_bind, blendChannel_eq _ hblue, ok_bind, blendAlpha_eq, ok_bind,
    pure_eq_ok]

theorem channelAfter_opaque (below above : UInt8) : channelAfter below 255 above = above.toNat := by
  simp [channelAfter]

theorem channelAfter_transparent (below : UInt8) : channelAfter below 0 0 = below.toNat := by
  simp [channelAfter]

theorem blended (p : FbPixel) (h : color.Premultiplied) :
    ∃ p', p.blend color = .ok p' ∧ Blended p color p' := by
  refine ⟨_, blend_eq p h, ?_, le_alphaAfter _ _, ?_, ?_⟩
  · obtain ⟨hred, hgreen, hblue⟩ := h
    rintro ⟨hred', hgreen', hblue'⟩
    have hlt := alphaAfter_lt p.alpha color.alpha
    exact ⟨ofNat_le_ofNat (channelAfter_le hred' hred) hlt,
      ofNat_le_ofNat (channelAfter_le hgreen' hgreen) hlt,
      ofNat_le_ofNat (channelAfter_le hblue' hblue) hlt⟩
  · intro hfull
    simp [hfull, channelAfter_opaque, alphaAfter]
  · intro hzero
    obtain ⟨hred, hgreen, hblue⟩ := h
    rw [hzero] at hred hgreen hblue
    rw [UInt8.le_zero_iff.mp hred, UInt8.le_zero_iff.mp hgreen, UInt8.le_zero_iff.mp hblue, hzero]
    simp [channelAfter_transparent, alphaAfter]

theorem blendAll_ok {colors : List PremultipliedRgbaColor} (p : FbPixel)
    (h : ∀ c ∈ colors, c.Premultiplied) :
    ∃ p', p.blendAll colors = .ok p' ∧ (p.Premultiplied → p'.Premultiplied) := by
  apply forEach_rule (fun q : FbPixel => p.Premultiplied → q.Premultiplied) id
  intro c hc q hq
  obtain ⟨q', hq', hstep⟩ := blended q (h c hc)
  exact ⟨q', hq', fun hp => hstep.premultiplied (hq hp)⟩

theorem blend_in_range (p : FbPixel) (colors : List PremultipliedRgbaColor)
    (h : ∀ c ∈ colors, c.Premultiplied) : InRange p colors := by
  constructor
  · obtain ⟨p', hp', -⟩ := blendAll_ok p h
    exact ⟨p', hp'⟩
  · rintro before c after rfl
    obtain ⟨hbefore, hrest⟩ := List.forall_mem_append.mp h
    obtain ⟨q, hq, hkeeps⟩ := blendAll_ok p hbefore
    obtain ⟨q', hq', hstep⟩ := blended q (List.forall_mem_cons.mp hrest).1
    exact ⟨q, q', hq, hq', hstep, fun hp => hstep.premultiplied (hkeeps hp)⟩

theorem blend_in_range_grey :
    InRange ⟨0, 0, 0, 0⟩ [⟨0x7F, 0x7F, 0x7F, 0x80⟩, ⟨0x7F, 0x7F, 0x7F, 0x80⟩] := by
  apply blend_in_range
  decide

end FbPixel

end FerricK
