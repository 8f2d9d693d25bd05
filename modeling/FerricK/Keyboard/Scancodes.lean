import FerricK.Keyboard.Model
import Mathlib.Data.List.Basic
import Mathlib.Tactic.Common

namespace FerricK

/-- The assignments `t[make] = b'c'`, as runs of consecutive make codes; the rest is 0. -/
def tableOf (runs : List (Nat × String)) : List UInt8 :=
  runs.foldl (fun t run =>
    t.take run.1 ++ run.2.toList.map Char.toUInt8 ++ t.drop (run.1 + run.2.length))
    (List.replicate 128 0)

def unshifted : List UInt8 := tableOf
  [(0x02, "1234567890-="), (0x10, "qwertyuiop[]"), (0x1E, "asdfghjkl;'`"), (0x2B, "\\zxcvbnm,./"),
    (0x39, " ")]

def shifted : List UInt8 := tableOf
  [(0x02, "!@#$%^&*()_+"), (0x10, "QWERTYUIOP\x7b\x7d"), (0x1E, "ASDFGHJKL:\"~"),
    (0x2B, "|ZXCVBNM<>?"), (0x39, " ")]

def controlKey (extended : Bool) (make : UInt8) : Option Key :=
  if extended then
    match make.toNat with
    | 0x1D => some .rightControl
    | 0x38 => some .rightAlt
    | 0x47 => some .home
    | 0x48 => some .up
    | 0x49 => some .pageUp
    | 0x4B => some .left
    | 0x4D => some .right
    | 0x4F => some .end
    | 0x50 => some .down
    | 0x51 => some .pageDown
    | 0x52 => some .insert
    | 0x53 => some .delete
    | _ => none
  else if 0x3B ≤ make ∧ make ≤ 0x44 then some (.f (make - 0x3B + 1))
  else
    match make.toNat with
    | 0x0E => some .backspace
    | 0x0F => some .tab
    | 0x1C => some .enter
    | 0x01 => some .escape
    | 0x2A => some .leftShift
    | 0x36 => some .rightShift
    | 0x1D => some .leftControl
    | 0x38 => some .leftAlt
    | 0x3A => some .capsLock
    | 0x57 => some (.f 11)
    | 0x58 => some (.f 12)
    | 0x47 => some .home
    | 0x48 => some .up
    | 0x49 => some .pageUp
    | 0x4B => some .left
    | 0x4D => some .right
    | 0x4F => some .end
    | 0x50 => some .down
    | 0x51 => some .pageDown
    | 0x52 => some .insert
    | 0x53 => some .delete
    | _ => none

structure ScancodeDecoder where
  extended : Bool
  pause : Bool
  leftShift : Bool
  rightShift : Bool
  capsLock : Bool
  deriving DecidableEq

namespace ScancodeDecoder

def new : ScancodeDecoder where
  extended := false
  pause := false
  leftShift := false
  rightShift := false
  capsLock := false

def shiftActive (d : ScancodeDecoder) : Bool := d.leftShift || d.rightShift

def asChar (b : UInt8) : Char := Char.ofNat b.toNat

def toAsciiUppercase (b : UInt8) : UInt8 := if isAsciiLowercase (asChar b) then b - 32 else b

/-- The tables have 128 entries, and a make code is below 128. -/
def map (d : ScancodeDecoder) (extended : Bool) (make : UInt8) : Key :=
  match controlKey extended make with
  | some key => key
  | none =>
    let base := unshifted.getD make.toNat 0
    if base ≠ 0 then
      let ch :=
        if isAsciiLowercase (asChar base) then
          if d.capsLock ^^ d.shiftActive then toAsciiUppercase base else base
        else if d.shiftActive then shifted.getD make.toNat 0
        else base
      .char (asChar ch)
    else .unknown make

def update (d : ScancodeDecoder) : KeyEvent → ScancodeDecoder
  | .press .leftShift => { d with leftShift := true }
  | .press .rightShift => { d with rightShift := true }
  | .press .capsLock => { d with capsLock := !d.capsLock }
  | .release .leftShift => { d with leftShift := false }
  | .release .rightShift => { d with rightShift := false }
  | _ => d

def push (d : ScancodeDecoder) (byte : UInt8) : Option KeyEvent × ScancodeDecoder :=
  if d.pause then (none, if byte = 0xC5 then { d with pause := false } else d)
  else if byte = 0xE0 then (none, { d with extended := true })
  else if byte = 0xE1 then (none, { d with pause := true })
  else
    let event :=
      if byte &&& 0x80 ≠ 0 then KeyEvent.release (d.map d.extended (byte &&& 0x7F))
      else KeyEvent.press (d.map d.extended byte)
    (some event, { d with extended := false }.update event)

theorem isChar_controlKey {extended : Bool} {make : UInt8} {key : Key}
    (h : controlKey extended make = some key) : key.isChar = false := by
  unfold controlKey at h
  repeat' split at h
  all_goals cases h
  all_goals rfl

theorem table_printable : ∀ n : Fin 128, unshifted.getD n 0 ≠ 0 →
    isPrintable (asChar (unshifted.getD n 0)) = true ∧
      isPrintable (asChar (shifted.getD n 0)) = true ∧
      isPrintable (asChar (toAsciiUppercase (unshifted.getD n 0))) = true := by
  decide +kernel

theorem length_unshifted : unshifted.length = 128 := by decide +kernel

theorem lt_of_unshifted {n : Nat} (h : unshifted.getD n 0 ≠ 0) : n < 128 := by
  rw [List.getD_eq_getElem?_getD] at h
  by_contra hge
  rw [List.getElem?_eq_none (by rw [length_unshifted]; omega)] at h
  exact h rfl

def Printable (make : UInt8) : Prop :=
  controlKey false make = none ∧ unshifted.getD make.toNat 0 ≠ 0

instance (make : UInt8) : Decidable (Printable make) :=
  inferInstanceAs (Decidable (_ ∧ _))

def low (make : UInt8) : Char := asChar (unshifted.getD make.toNat 0)
def high (make : UInt8) : Char := asChar (shifted.getD make.toNat 0)

structure Keycap (make : UInt8) : Prop where
  upper : isAsciiLowercase (low make) →
    toAsciiUppercase (unshifted.getD make.toNat 0) = shifted.getD make.toNat 0
  plain : isAsciiGraphic (low make) = false → high make = low make
  isMake : make &&& 0x80 = 0 ∧ make ≠ 0xE0 ∧ make ≠ 0xE1

theorem keycap {make : UInt8} (h : unshifted.getD make.toNat 0 ≠ 0) : Keycap make := by
  have hall : ∀ n : Fin 128, unshifted.getD n 0 ≠ 0 →
      (isAsciiLowercase (asChar (unshifted.getD n 0)) →
        toAsciiUppercase (unshifted.getD n 0) = shifted.getD n 0) ∧
      (isAsciiGraphic (asChar (unshifted.getD n 0)) = false →
        asChar (shifted.getD n 0) = asChar (unshifted.getD n 0)) := by
    decide +kernel
  have hbyte : ∀ n : Fin 128, UInt8.ofNat n &&& 0x80 = 0 ∧ UInt8.ofNat n ≠ 0xE0 ∧
      UInt8.ofNat n ≠ 0xE1 := by
    decide
  have hmake := hbyte ⟨make.toNat, lt_of_unshifted h⟩
  rw [UInt8.ofNat_toNat] at hmake
  obtain ⟨hupper, hplain⟩ := hall ⟨make.toNat, lt_of_unshifted h⟩ h
  exact ⟨hupper, hplain, hmake⟩

theorem Printable.keycap {make : UInt8} (h : Printable make) : Keycap make :=
  ScancodeDecoder.keycap h.2

def model (d : ScancodeDecoder) : KeyboardModel where
  shifted := d.shiftActive
  caps := d.capsLock

theorem map_char (d : ScancodeDecoder) {extended : Bool} {make : UInt8}
    (hcontrol : controlKey extended make = none) (hbase : unshifted.getD make.toNat 0 ≠ 0) :
    d.map extended make = .char (d.model.encode (low make) (high make)) := by
  have hkey := keycap hbase
  have hlow : asChar (unshifted.getD make.toNat 0) = low make := rfl
  have hhigh : asChar (shifted.getD make.toNat 0) = high make := rfl
  simp only [map, hcontrol, if_pos hbase, apply_ite asChar, hlow, hhigh, KeyboardModel.encode,
    model]
  by_cases hlower : isAsciiLowercase (low make)
  · rw [if_pos hlower, if_pos hlower, hkey.upper hlower, hhigh]
    rfl
  · rw [if_neg hlower, if_neg hlower]
    cases hgraphic : isAsciiGraphic (low make) with
    | true => simp
    | false => simp [hkey.plain hgraphic]

theorem map_printable (d : ScancodeDecoder) {make : UInt8} (h : Printable make) :
    d.map false make = .char (d.model.encode (low make) (high make)) :=
  map_char d h.1 h.2

def Idle (d : ScancodeDecoder) : Prop := d.pause = false ∧ d.extended = false

theorem push_printable {d : ScancodeDecoder} (hd : d.Idle) {make : UInt8} (h : Printable make) :
    (d.push make).1 = some (.press (.char (d.model.encode (low make) (high make)))) := by
  obtain ⟨hmake, h0, h1⟩ := h.keycap.isMake
  simp [push, hd.1, hd.2, hmake, h0, h1, map_printable d h]

def Agrees (d : ScancodeDecoder) (m : KeyboardModel) : Prop :=
  ∀ make, Printable make →
    (d.push make).1 = some (.press (.char (m.encode (low make) (high make))))

/-- The digit keys tell the shift flags apart. -/
theorem agrees_iff {d : ScancodeDecoder} (hd : d.Idle) {m : KeyboardModel}
    (hcaps : d.capsLock = m.caps) : d.Agrees m ↔ d.shiftActive = m.shifted := by
  constructor
  · intro h
    have hprintable : Printable 0x02 := by decide
    have hone := (push_printable hd hprintable).symm.trans (h 0x02 hprintable)
    have hlow : low 0x02 = '1' := by decide
    have hhigh : high 0x02 = '!' := by decide
    simp only [hlow, hhigh, Option.some.injEq, KeyEvent.press.injEq, Key.char.injEq] at hone
    rw [KeyboardModel.encode_one, KeyboardModel.encode_one] at hone
    cases hshift : d.shiftActive <;> cases hm : m.shifted <;> simp_all [model]
  · intro h make hmake
    have hmodel : d.model = m := by
      rw [model, h, hcaps]
    rw [push_printable hd hmake, hmodel]

end ScancodeDecoder

end FerricK
