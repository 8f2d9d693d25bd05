import Mathlib.Logic.Function.Basic
import Mathlib.Data.List.Basic
import Mathlib.Tactic.Common

namespace Terminal

structure Line where
  cells : Nat → Char
  cursor : Nat

namespace Line

/-- A graphic byte is drawn at the cursor, a backspace only moves it. -/
def recv (t : Line) (byte : UInt8) : Line :=
  if byte = 0x08 then { t with cursor := t.cursor - 1 }
  else if 0x20 ≤ byte ∧ byte ≤ 0x7e then
    { cells := Function.update t.cells t.cursor (Char.ofNat byte.toNat), cursor := t.cursor + 1 }
  else t

def replay (t : Line) (bytes : List UInt8) : Line := bytes.foldl recv t

/-- The line is `base` with `text` on it from the cursor of `base`, blanks after `text`, and the
cursor right behind it. -/
structure Shows (base : Line) (text : List Char) (t : Line) : Prop where
  cells : ∀ i, t.cells i =
    if i < base.cursor then base.cells i else (text[i - base.cursor]?).getD ' '
  cursor : t.cursor = base.cursor + text.length

variable {base t : Line} {text : List Char} {c : Char}

theorem replay_append (t : Line) (bytes bytes' : List UInt8) :
    t.replay (bytes ++ bytes') = (t.replay bytes).replay bytes' := List.foldl_append

theorem shows_nil (h : ∀ i ≥ base.cursor, base.cells i = ' ') : base.Shows [] base where
  cells := by
    intro i
    split
    · rfl
    · exact h i (by omega)
  cursor := rfl

theorem recv_graphic (h : ' ' ≤ c ∧ c ≤ '~') (t : Line) : t.recv c.toUInt8 =
    { cells := Function.update t.cells t.cursor c, cursor := t.cursor + 1 } := by
  have hlow : 0x20 ≤ c.toNat := h.1
  have hhigh : c.toNat ≤ 0x7e := h.2
  have hbyte : c.toUInt8.toNat = c.toNat := by
    change c.toNat % 2 ^ 8 = c.toNat
    exact Nat.mod_eq_of_lt (by omega)
  have hne : c.toUInt8 ≠ 0x08 := by
    rw [ne_eq, ← UInt8.toNat_inj, hbyte]
    change c.toNat ≠ 8
    omega
  have hrange : 0x20 ≤ c.toUInt8 ∧ c.toUInt8 ≤ 0x7e := by
    rw [UInt8.le_iff_toNat_le, UInt8.le_iff_toNat_le, hbyte]
    exact h
  rw [recv, if_neg hne, if_pos hrange, hbyte, Char.ofNat_toNat]

theorem Shows.put (h : base.Shows text t) (hc : ' ' ≤ c ∧ c ≤ '~') :
    base.Shows (text ++ [c]) (t.recv c.toUInt8) where
  cells := by
    intro i
    rw [recv_graphic hc]
    change Function.update t.cells t.cursor c i = _
    obtain rfl | hne := eq_or_ne i t.cursor
    · rw [Function.update_self, h.cursor, if_neg (by omega), Nat.add_sub_cancel_left]
      simp
    · rw [Function.update_of_ne hne, h.cells i]
      split
      · rfl
      · have hother : i - base.cursor ≠ text.length := by
          rw [h.cursor] at hne
          omega
        rw [List.getElem?_append]
        split
        · rfl
        · rw [List.getElem?_eq_none (by omega), List.getElem?_eq_none (by simp; omega)]
  cursor := by
    rw [recv_graphic hc, List.length_append, List.length_singleton, ← Nat.add_assoc, ← h.cursor]

theorem Shows.erase (h : base.Shows text t) (hne : text ≠ []) :
    base.Shows text.dropLast (t.replay [0x08, 0x20, 0x08]) := by
  have hpos : 0 < text.length := List.length_pos_iff.mpr hne
  have hblank : t.replay [0x08, 0x20, 0x08] =
      { cells := Function.update t.cells (t.cursor - 1) ' ', cursor := t.cursor - 1 } := rfl
  have hcursor : t.cursor - 1 = base.cursor + text.dropLast.length := by
    rw [h.cursor, List.length_dropLast]
    omega
  rw [hblank, hcursor]
  refine ⟨fun i => ?_, rfl⟩
  change Function.update t.cells _ ' ' i = _
  obtain rfl | hi := eq_or_ne i (base.cursor + text.dropLast.length)
  · rw [Function.update_self, if_neg (by omega), Nat.add_sub_cancel_left,
      List.getElem?_eq_none (Nat.le_refl _)]
    rfl
  · rw [Function.update_of_ne hi, h.cells i]
    split
    · rfl
    · rw [List.getElem?_dropLast]
      split
      · rfl
      · rw [List.length_dropLast] at hi
        rw [List.getElem?_eq_none (by omega)]

end Line

end Terminal
