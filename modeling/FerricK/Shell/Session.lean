import FerricK.Crash
import FerricK.Keyboard.LineEditor
import FerricK.Lib.Terminal

namespace FerricK.Shell

/-- The source's editor, with the characters beyond `len` that earlier lines left. -/
structure LineEditor where
  slots : Vector Char maxLineChars
  len : Nat
  len_le : len ≤ maxLineChars

namespace LineEditor

def new : LineEditor where
  slots := Vector.replicate maxLineChars ' '
  len := 0
  len_le := Nat.zero_le _

def handle (e : LineEditor) : KeyEvent → LineAction × LineEditor
  | .press (.char c) =>
    if isPrintable c then
      if h : e.len < maxLineChars then
        (.inserted, { slots := e.slots.set e.len c, len := e.len + 1, len_le := h })
      else (.ignored, e)
    else (.ignored, e)
  | .press .enter => (.submitted, e)
  | .press .backspace =>
    if e.len = 0 then (.ignored, e)
    else (.erased, { e with len := e.len - 1, len_le := Nat.le_trans (Nat.sub_le _ _) e.len_le })
  | _ => (.ignored, e)

def line (e : LineEditor) : List Char := e.slots.toList.take e.len

def clear (e : LineEditor) : LineEditor := { e with len := 0, len_le := Nat.zero_le _ }

variable (e : LineEditor)

theorem handle_char (c : Char) : e.handle (.press (.char c)) =
    if isPrintable c then
      if h : e.len < maxLineChars then
        (.inserted, { slots := e.slots.set e.len c, len := e.len + 1, len_le := h })
      else (.ignored, e)
    else (.ignored, e) := rfl

theorem handle_backspace : e.handle (.press .backspace) =
    if e.len = 0 then (.ignored, e)
    else (.erased, { e with len := e.len - 1, len_le := Nat.le_trans (Nat.sub_le _ _) e.len_le }) :=
  rfl

@[simp] theorem length_line : e.line.length = e.len := by
  simp [line, e.len_le]

def view : FerricK.LineEditor where
  line := e.line
  length_le := by rw [length_line]; exact e.len_le

theorem eq_of_line {e e' : FerricK.LineEditor} (h : e.line = e'.line) : e = e' := by
  cases e
  cases e'
  simpa using h

theorem take_set (c : Char) (h : e.len < maxLineChars) :
    (e.slots.set e.len c).toList.take (e.len + 1) = e.line ++ [c] := by
  have hlen : e.len < (e.slots.toList.set e.len c).length := by simpa using h
  rw [Vector.toList_set, List.take_succ_eq_append_getElem hlen, List.getElem_set_self,
    List.take_set_of_le (Nat.le_refl _)]
  rfl

theorem view_handle (event : KeyEvent) :
    e.view.handle event = ((e.handle event).1, (e.handle event).2.view) := by
  have hlength : e.view.line.length = e.len := e.length_line
  cases event with
  | release key => rfl
  | press key =>
    cases key with
    | char c =>
      rw [FerricK.LineEditor.handle_char, handle_char]
      split
      · by_cases hroom : e.len < maxLineChars
        · rw [dif_pos (hlength ▸ hroom), dif_pos hroom]
          refine Prod.ext rfl (eq_of_line ?_)
          exact (e.take_set c hroom).symm
        · rw [dif_neg (hlength ▸ hroom), dif_neg hroom]
      · rfl
    | backspace =>
      rw [FerricK.LineEditor.handle_backspace, handle_backspace, hlength]
      split
      · rfl
      · refine Prod.ext rfl (eq_of_line ?_)
        change e.line.dropLast = e.slots.toList.take (e.len - 1)
        rw [List.dropLast_eq_take, e.length_line, line, List.take_take,
          Nat.min_eq_left (Nat.sub_le _ _)]
    | _ => rfl

end LineEditor

def edit (line : List Char) : KeyEvent → List Char
  | .press (.char c) =>
    if isPrintable c ∧ line.length < maxLineChars then line ++ [c] else line
  | .press .backspace => line.dropLast
  | _ => line

theorem edit_char (line : List Char) (c : Char) : edit line (.press (.char c)) =
    if isPrintable c ∧ line.length < maxLineChars then line ++ [c] else line := rfl

theorem edit_backspace (line : List Char) : edit line (.press .backspace) = line.dropLast := rfl

def mirrorToSerial (s : List Char) : List UInt8 := Crash.expandLfToCrlf s

/-- `echoed` is what has been mirrored since the prompt, `ran` what `run_command` was called on. -/
structure Session where
  editor : LineEditor
  echoed : List UInt8
  ran : List (List Char)

namespace Session

/-- One key of `shell_loop`.  After a submitted line `println!`, the command and the new prompt
write to the port, so the echo goes on on a line of its own. -/
def step (s : Session) (event : KeyEvent) : Session :=
  match s.editor.handle event with
  | (.inserted, editor) =>
    { s with
      editor
      echoed := s.echoed ++ (editor.line.getLast?.elim [] fun c => mirrorToSerial [c]) }
  | (.erased, editor) =>
    { s with editor, echoed := s.echoed ++ mirrorToSerial ['\x08', ' ', '\x08'] }
  | (.submitted, editor) =>
    { editor := editor.clear, echoed := [], ran := s.ran ++ [editor.line] }
  | (.ignored, editor) => { s with editor }

variable {s : Session} {event : KeyEvent} {c : Char}

theorem isPrintable_range (h : isPrintable c = true) : ' ' ≤ c ∧ c ≤ '~' := by
  rw [isPrintable, isAsciiGraphic, Bool.or_eq_true, Bool.and_eq_true, decide_eq_true_eq,
    decide_eq_true_eq, decide_eq_true_eq] at h
  obtain ⟨hlow, hhigh⟩ | rfl := h
  · exact ⟨Char.le_trans (by decide) hlow, hhigh⟩
  · decide

theorem mirrorToSerial_printable (h : isPrintable c = true) :
    mirrorToSerial [c] = [c.toUInt8] := by
  obtain ⟨hlow, hhigh⟩ := isPrintable_range h
  have hascii : c.val ≤ 127 := UInt32.le_trans hhigh (by decide)
  have hutf8 : Crash.utf8 [c] = [c.toUInt8] := by
    rw [Crash.utf8, List.flatMap_singleton,
      String.utf8EncodeChar_eq_singleton (Char.utf8Size_eq_one_iff.mpr hascii)]
    rfl
  have hne : c.toUInt8 ≠ 10 := by
    have hlow : 32 ≤ c.toNat := hlow
    have hhigh : c.toNat ≤ 126 := hhigh
    rw [ne_eq, ← UInt8.toNat_inj]
    change ¬ c.toNat % 2 ^ 8 = 10
    omega
  rw [mirrorToSerial, Crash.expandLfToCrlf, hutf8, List.flatMap_singleton, if_neg hne]

theorem handle_edit (e : FerricK.LineEditor) (hevent : event ≠ .press .enter) :
    (∃ c, isPrintable c = true ∧ (e.handle event).1 = .inserted ∧
      (e.handle event).2.line = e.line ++ [c] ∧ edit e.line event = e.line ++ [c]) ∨
    ((e.handle event).1 = .erased ∧ e.line ≠ [] ∧ (e.handle event).2.line = e.line.dropLast ∧
      edit e.line event = e.line.dropLast) ∨
    ((e.handle event).1 = .ignored ∧ (e.handle event).2.line = e.line ∧
      edit e.line event = e.line) := by
  cases event with
  | release key => exact .inr (.inr ⟨rfl, rfl, rfl⟩)
  | press key =>
    cases key with
    | char c =>
      rw [FerricK.LineEditor.handle_char, edit_char]
      by_cases hprintable : isPrintable c = true
      · by_cases hroom : e.line.length < maxLineChars
        · rw [if_pos hprintable, dif_pos hroom, if_pos ⟨hprintable, hroom⟩]
          exact .inl ⟨c, hprintable, rfl, rfl, rfl⟩
        · rw [if_pos hprintable, dif_neg hroom, if_neg fun h => hroom h.2]
          exact .inr (.inr ⟨rfl, rfl, rfl⟩)
      · rw [if_neg hprintable, if_neg fun h => hprintable h.1]
        exact .inr (.inr ⟨rfl, rfl, rfl⟩)
    | backspace =>
      rw [FerricK.LineEditor.handle_backspace, edit_backspace]
      split
      · rename_i hempty
        have hnil : e.line = [] := List.eq_nil_of_length_eq_zero hempty
        exact .inr (.inr ⟨rfl, rfl, by rw [hnil, List.dropLast_nil]⟩)
      · rename_i hne
        exact .inr (.inl ⟨rfl, mt List.length_eq_zero_iff.mpr hne, rfl, rfl⟩)
    | enter => exact absurd rfl hevent
    | _ => exact .inr (.inr ⟨rfl, rfl, rfl⟩)

theorem step_echoes {base : Terminal.Line}
    (h : base.Shows s.editor.line (base.replay s.echoed)) (hevent : event ≠ .press .enter) :
    (s.step event).editor.line = edit s.editor.line event ∧ (s.step event).ran = s.ran ∧
    base.Shows (s.step event).editor.line (base.replay (s.step event).echoed) := by
  have hview := s.editor.view_handle event
  have hcases := handle_edit s.editor.view hevent
  rw [hview] at hcases
  cases hhandle : s.editor.handle event with
  | mk action editor =>
    rw [hhandle] at hcases
    have hline : s.editor.view.line = s.editor.line := rfl
    rw [hline] at hcases
    obtain ⟨c, hc, rfl, hnew, hedit⟩ | ⟨rfl, hne, hnew, hedit⟩ | ⟨rfl, hnew, hedit⟩ := hcases
    · have hstep : s.step event =
          { s with editor, echoed := s.echoed ++ mirrorToSerial [c] } := by
        have hlast : editor.line.getLast? = some c := by
          rw [show editor.line = _ from hnew, List.getLast?_concat]
        simp only [step, hhandle, hlast, Option.elim_some]
      rw [hstep, hedit]
      refine ⟨hnew, rfl, ?_⟩
      rw [show editor.line = _ from hnew, Terminal.Line.replay_append,
        mirrorToSerial_printable hc]
      exact h.put (isPrintable_range hc)
    · have hstep : s.step event =
          { s with editor, echoed := s.echoed ++ [0x08, 0x20, 0x08] } := by
        simp only [step, hhandle]
        rfl
      rw [hstep, hedit]
      refine ⟨hnew, rfl, ?_⟩
      rw [show editor.line = _ from hnew, Terminal.Line.replay_append]
      exact h.erase hne
    · have hstep : s.step event = { s with editor } := by simp only [step, hhandle]
      rw [hstep, hedit]
      refine ⟨hnew, rfl, ?_⟩
      rw [show editor.line = _ from hnew]
      exact h

theorem run_echoes {base : Terminal.Line} {events : List KeyEvent}
    (h : base.Shows s.editor.line (base.replay s.echoed))
    (hevents : ∀ event ∈ events, event ≠ .press .enter) :
    (events.foldl step s).editor.line = events.foldl edit s.editor.line ∧
    (events.foldl step s).ran = s.ran ∧
    base.Shows (events.foldl step s).editor.line
      (base.replay (events.foldl step s).echoed) := by
  induction events generalizing s with
  | nil => exact ⟨rfl, rfl, h⟩
  | cons event events ih =>
    obtain ⟨hevent, hevents⟩ := List.forall_mem_cons.mp hevents
    obtain ⟨hline, hran, hshows⟩ := step_echoes h hevent
    obtain ⟨hline', hran', hshows'⟩ := ih hshows hevents
    rw [List.foldl_cons, List.foldl_cons, ← hline, ← hran]
    exact ⟨hline', hran', hshows'⟩

theorem step_enter (s : Session) : s.step (.press .enter) =
    { editor := s.editor.clear, echoed := [], ran := s.ran ++ [s.editor.line] } := rfl

theorem handle_submitted (e : LineEditor) :
    (e.handle event).1 = .submitted ↔ event = .press .enter := by
  constructor
  · intro hsubmitted
    by_contra hevent
    have hcases := handle_edit e.view hevent
    rw [e.view_handle event, hsubmitted] at hcases
    obtain ⟨-, -, h, -⟩ | ⟨h, -⟩ | ⟨h, -⟩ := hcases <;> exact nomatch h
  · rintro rfl
    rfl

end Session

theorem shell_echoes_line (s : Session) (hline : s.editor.line = []) (hechoed : s.echoed = [])
    (events : List KeyEvent)
    (hevents : ∀ event ∈ events, ∀ e : LineEditor, (e.handle event).1 ≠ .submitted)
    (base : Terminal.Line) (hblank : ∀ i ≥ base.cursor, base.cells i = ' ') :
    (events.foldl Session.step s).editor.line = events.foldl edit [] ∧
    base.Shows (events.foldl edit []) (base.replay (events.foldl Session.step s).echoed) ∧
    (∀ event, ((events.foldl Session.step s).editor.handle event).1 = .submitted →
      ((events.foldl Session.step s).step event).ran = s.ran ++ [events.foldl edit []] ∧
      ((events.foldl Session.step s).step event).editor.line = [] ∧
      ((events.foldl Session.step s).step event).echoed = []) := by
  have hshows : base.Shows s.editor.line (base.replay s.echoed) := by
    rw [hline, hechoed]
    exact Terminal.Line.shows_nil hblank
  have hkeys : ∀ event ∈ events, event ≠ .press .enter := by
    intro event hmem henter
    exact hevents event hmem s.editor ((Session.handle_submitted _).mpr henter)
  obtain ⟨hline', hran, hshows'⟩ := Session.run_echoes hshows hkeys
  rw [hline] at hline'
  rw [hline'] at hshows'
  refine ⟨hline', hshows', ?_⟩
  intro event hsubmitted
  obtain rfl := (Session.handle_submitted _).mp hsubmitted
  rw [Session.step_enter, hran, hline']
  exact ⟨rfl, rfl, rfl⟩

theorem shell_echoes_line_backspace :
    let s : Session := ⟨(LineEditor.new.handle (.press (.char 'z'))).2.clear, [], [['z']]⟩
    let events : List KeyEvent := [.press (.char 'a'), .release (.char 'a'), .press .backspace,
      .press (.char 'b')]
    (events.foldl Session.step s).editor.line = ['b'] := by
  intro s events
  have hevents : ∀ event ∈ events, ∀ e : LineEditor, (e.handle event).1 ≠ .submitted := by
    intro event hevent e hsubmitted
    have henter := (Session.handle_submitted e).mp hsubmitted
    simp [events, henter] at hevent
  exact (shell_echoes_line s rfl rfl events hevents ⟨fun _ => ' ', 10⟩ fun _ _ => rfl).1

end FerricK.Shell
