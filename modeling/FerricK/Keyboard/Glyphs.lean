import FerricK.Keyboard.Scancodes
import FerricK.Keyboard.Taps
import FerricK.Lib.Bytes

namespace FerricK.Screen

open ScancodeDecoder

def highShown (letter shiftState capsState : Bool) : Bool :=
  letter && (shiftState && !capsState || !shiftState && capsState) || !letter && shiftState

def shown (m : KeyboardModel) : ScreenKey → Option Char
  | .char low high =>
    some (if highShown (isAsciiLowercase low) m.shifted m.caps then high else low)
  | _ => none

def onScreen (make : UInt8) : ScreenKey :=
  if make = 0x39 then .space else .char (low make) (high make)

def InWindow (key : ScreenKey) : Prop := ∃ layout ∈ layouts, key ∈ layout.keys.map Prod.snd

/-- Pressed with no physical shift and caps, a key types what a tap on its key in the window
would. -/
def TypesGlyph (s : Screen) (make : UInt8) : Prop :=
  ∀ d : ScancodeDecoder, d.Idle → d.shiftActive = false → d.capsLock = false →
    ∃ event, (d.push make).1 = some event ∧
      (s.key event).dispatched = s.dispatched ++ (glyph s.state (onScreen make)).toList

/-- The modifiers of the window leave a key at its low glyph: shift and caps are alike for a letter,
shift is off for the others. -/
def Unraised (m : KeyboardModel) (make : UInt8) : Prop :=
  m.shifted = (isAsciiLowercase (low make) && m.caps)

instance (m : KeyboardModel) (make : UInt8) : Decidable (Unraised m make) :=
  inferInstanceAs (Decidable (_ = _))

variable {s : Screen} {m : KeyboardModel} {make : UInt8} {d : ScancodeDecoder}

theorem printable_low (make : UInt8) (h : Printable make) : isPrintable (low make) = true := by
  exact (table_printable ⟨make.toNat, lt_of_unshifted h.2⟩ h.2).1

theorem table_onScreen : ∀ n : Fin 128, unshifted.getD n 0 ≠ 0 →
    onScreen (.ofNat n) ∈ layouts.flatMap (fun layout => layout.keys.map Prod.snd) ∧
      (UInt8.ofNat n = 0x39 ↔ isAsciiGraphic (asChar (unshifted.getD n 0)) = false) := by
  decide +kernel

theorem printable_onScreen (make : UInt8) (h : Printable make) : InWindow (onScreen make) := by
  have hscreen := (table_onScreen ⟨make.toNat, lt_of_unshifted h.2⟩ h.2).1
  rw [UInt8.ofNat_toNat] at hscreen
  exact List.mem_flatMap.mp hscreen

theorem space_iff (make : UInt8) (h : Printable make) :
    make = 0x39 ↔ isAsciiGraphic (low make) = false := by
  have hspace := (table_onScreen ⟨make.toNat, lt_of_unshifted h.2⟩ h.2).2
  rwa [UInt8.ofNat_toNat] at hspace

theorem shown_onScreen (h : Printable make) (hne : make ≠ 0x39) (m : KeyboardModel) :
    shown m (onScreen make) = some (m.encode (low make) (high make)) := by
  have hgraphic : isAsciiGraphic (low make) = true := by
    rw [← Bool.not_eq_false, ← space_iff make h]
    exact hne
  rw [onScreen, if_neg hne]
  cases hlower : isAsciiLowercase (low make) <;> cases hshift : m.shifted <;>
    cases hcaps : m.caps <;>
    simp [shown, highShown, KeyboardModel.encode, hlower, hgraphic, hshift, hcaps]

theorem glyph_onScreen (m : KeyboardModel) (make : UInt8) : glyph m (onScreen make) =
    some (.press (.char (m.encode (low make) (high make)))) := by
  by_cases hspace : make = 0x39
  · subst hspace
    have hlow : low 0x39 = ' ' := by decide
    have hhigh : high 0x39 = ' ' := by decide
    rw [hlow, hhigh, KeyboardModel.encode_self]
    rfl
  · rw [onScreen, if_neg hspace, glyph]

theorem encode_eq_low (h : Printable make) (m : KeyboardModel) :
    m.encode (low make) (high make) = low make ↔ low make = high make ∨ Unraised m make := by
  unfold KeyboardModel.encode Unraised
  cases hlower : isAsciiLowercase (low make) with
  | true => cases m.shifted <;> cases m.caps <;> simp [eq_comm]
  | false =>
    cases hgraphic : isAsciiGraphic (low make) with
    | true => cases m.shifted <;> simp [eq_comm]
    | false => simp [h.keycap.plain hgraphic]

theorem push_low (h : Printable make) (hd : d.Idle) (hshift : d.shiftActive = false)
    (hcaps : d.capsLock = false) : (d.push make).1 = some (.press (.char (low make))) := by
  have hmodel : d.model = .new := by rw [model, hshift, hcaps]; rfl
  have hunraised : Unraised .new make := (Bool.and_false _).symm
  rw [push_printable hd h, hmodel, (encode_eq_low h .new).mpr (.inr hunraised)]

/-- The loop encodes a character against itself, and sends it as it is. -/
theorem dispatched_char {c : Char} (h : isPrintable c = true) (s : Screen) :
    (s.key (.press (.char c))).dispatched = s.dispatched ++ [.press (.char c)] :=
  (Turn.char h).dispatched

theorem types_glyph_iff (h : Printable make) (s : Screen) :
    InWindow (onScreen make) ∧
      glyph s.state (onScreen make) =
        some (.press (.char (s.state.encode (low make) (high make)))) ∧
      (make ≠ 0x39 →
        shown s.state (onScreen make) = some (s.state.encode (low make) (high make))) ∧
      (TypesGlyph s make ↔ low make = high make ∨ Unraised s.state make) := by
  refine ⟨printable_onScreen make h, glyph_onScreen s.state make,
    fun hne => shown_onScreen h hne s.state, ?_⟩
  rw [← encode_eq_low h]
  constructor
  · intro htypes
    obtain ⟨event, hpush, hsent⟩ := htypes .new ⟨rfl, rfl⟩ rfl rfl
    obtain rfl := Option.some.inj ((push_low h ⟨rfl, rfl⟩ rfl rfl).symm.trans hpush)
    rw [dispatched_char (printable_low make h), glyph_onScreen] at hsent
    simpa [eq_comm] using hsent
  · intro hlow d hd hshift hcaps
    refine ⟨_, push_low h hd hshift hcaps, ?_⟩
    rw [dispatched_char (printable_low make h), glyph_onScreen, hlow]
    rfl

theorem types_glyph_iff_capsDigit : InWindow (onScreen 0x02) ∧
    glyph ⟨false, true⟩ (onScreen 0x02) = some (.press (.char '1')) ∧
    TypesGlyph { start with state := ⟨false, true⟩ } 0x02 := by
  have hprintable : Printable 0x02 := by decide
  obtain ⟨hwindow, hglyph, -, htypes⟩ :=
    types_glyph_iff hprintable { start with state := ⟨false, true⟩ }
  exact ⟨hwindow, hglyph, htypes.mpr (.inr (by decide))⟩

/-- SHIFT is lit in the window, its key shows `!`, and the physical key types `1`. -/
theorem lit_shift_types_digit : shown ⟨true, false⟩ (onScreen 0x02) = some '!' ∧
    ¬ TypesGlyph { start with state := ⟨true, false⟩ } 0x02 := by
  refine ⟨by decide, fun htypes => ?_⟩
  obtain ⟨event, hpush, hsent⟩ := htypes .new ⟨rfl, rfl⟩ rfl rfl
  have hevent : (new.push 0x02).1 = some (.press (.char '1')) := by decide
  obtain rfl := Option.some.inj (hevent.symm.trans hpush)
  exact absurd hsent (by decide)

end FerricK.Screen
