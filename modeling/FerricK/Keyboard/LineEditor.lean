import FerricK.Keyboard.Model

namespace FerricK

def maxLineChars : Nat := 128

inductive LineAction
  | inserted
  | erased
  | submitted
  | ignored
  deriving DecidableEq

/-- `line` is what the source's `line` returns, the first `len` characters of its buffer. -/
structure LineEditor where
  line : List Char
  length_le : line.length ≤ maxLineChars
  deriving DecidableEq

namespace LineEditor

def new : LineEditor where
  line := []
  length_le := Nat.zero_le _

def append (e : LineEditor) (c : Char) (h : e.line.length < maxLineChars) : LineEditor where
  line := e.line ++ [c]
  length_le := by rw [List.length_append]; exact h

def dropLast (e : LineEditor) : LineEditor where
  line := e.line.dropLast
  length_le := by rw [List.length_dropLast]; exact Nat.le_trans (Nat.sub_le _ _) e.length_le

def handle (e : LineEditor) : KeyEvent → LineAction × LineEditor
  | .press (.char c) =>
    if isPrintable c then
      if h : e.line.length < maxLineChars then (.inserted, e.append c h) else (.ignored, e)
    else (.ignored, e)
  | .press .enter => (.submitted, e)
  | .press .backspace => if e.line.length = 0 then (.ignored, e) else (.erased, e.dropLast)
  | _ => (.ignored, e)

variable {e : LineEditor} {event : KeyEvent} {c : Char}

theorem line_dropLast_ne : e.dropLast.line ≠ e.line ++ [c] := by
  intro h
  have hlength := congrArg List.length h
  rw [dropLast, List.length_dropLast, List.length_append, List.length_singleton] at hlength
  omega

theorem line_ne_concat : e.line ≠ e.line ++ [c] := by
  intro h
  have hlength := congrArg List.length h
  rw [List.length_append, List.length_singleton] at hlength
  omega

theorem handle_char (e : LineEditor) (c : Char) : e.handle (.press (.char c)) =
    if isPrintable c then
      if h : e.line.length < maxLineChars then (.inserted, e.append c h) else (.ignored, e)
    else (.ignored, e) := rfl

theorem handle_backspace (e : LineEditor) : e.handle (.press .backspace) =
    if e.line.length = 0 then (.ignored, e) else (.erased, e.dropLast) := rfl

theorem line_handle_concat : (e.handle event).2.line = e.line ++ [c] ↔
    event = .press (.char c) ∧ isPrintable c ∧ e.line.length < maxLineChars := by
  cases event with
  | release key => exact iff_of_false line_ne_concat nofun
  | press key =>
    cases key with
    | char c' =>
      rw [handle_char]
      by_cases hprintable : isPrintable c' = true
      · rw [if_pos hprintable]
        by_cases hroom : e.line.length < maxLineChars
        · rw [dif_pos hroom, append, List.append_cancel_left_eq, List.cons.injEq,
            KeyEvent.press.injEq, Key.char.injEq]
          exact ⟨fun h => ⟨h.1, h.1 ▸ hprintable, hroom⟩, fun h => ⟨h.1, rfl⟩⟩
        · rw [dif_neg hroom]
          exact iff_of_false line_ne_concat fun h => hroom h.2.2
      · rw [if_neg hprintable]
        refine iff_of_false line_ne_concat ?_
        rintro ⟨h, hc, -⟩
        cases h
        exact hprintable hc
    | backspace =>
      rw [handle_backspace]
      refine iff_of_false ?_ nofun
      split
      · exact line_ne_concat
      · exact line_dropLast_ne
    | _ => exact iff_of_false line_ne_concat nofun

theorem line_handle_unknown {make : UInt8} (h : event.key = .unknown make) :
    (e.handle event).2 = e := by
  cases event with
  | press key =>
    obtain rfl : key = .unknown make := h
    rfl
  | release key => rfl

end LineEditor

end FerricK
