import FerricK.Keyboard.Devices
import FerricK.Keyboard.Framing
import FerricK.Shell.Loop

namespace FerricK.Shell

open ScancodeDecoder

def atRest (caps : Bool) : ScancodeDecoder := { ScancodeDecoder.new with capsLock := caps }

/-- A US keyboard: the make code of the first key of each row, and what the caps of the row's
keys show, below and above. -/
def keyRows : List (UInt8 × List Char × List Char) :=
  [(0x02, "1234567890-=".toList, "!@#$%^&*()_+".toList),
    (0x10, "qwertyuiop[]".toList, "QWERTYUIOP{}".toList),
    (0x1E, "asdfghjkl;'`".toList, "ASDFGHJKL:\"~".toList),
    (0x2B, "\\zxcvbnm,./".toList, "|ZXCVBNM<>?".toList),
    (0x39, [' '], [])]

def keyWith (above : Bool) (c : Char) : Option UInt8 :=
  keyRows.findSome? fun row =>
    ((if above then row.2.2 else row.2.1).idxOf? c).map fun i => row.1 + UInt8.ofNat i

/-- Shift is for what a cap shows above; with Caps Lock on, for the small letters instead of the
capitals. -/
def needsShift (caps : Bool) (c : Char) : Bool :=
  if c.isAlpha then c.isUpper != caps else (keyWith true c).isSome

def strokes (caps : Bool) (c : Char) : List UInt8 :=
  ((keyWith false c).or (keyWith true c)).elim [] fun make =>
    if needsShift caps c then [0x2A, make, make ||| 0x80, 0xAA] else [make, make ||| 0x80]

def ps2Line (caps : Bool) (line : List Char) : List UInt8 :=
  line.flatMap (strokes caps) ++ [0x1C, 0x9C]

def terminalLine (line : List Char) : List UInt8 := line.map Char.toUInt8 ++ [0x0D]

def Typeable (line : List Char) : Prop :=
  line.length ≤ maxLineChars ∧ ∀ c ∈ line, isPrintable c = true

def submitted : List Char → List KeyEvent → List (List Char)
  | _, [] => []
  | line, event :: events =>
    if event = .press .enter then line :: submitted [] events
    else submitted (edit line event) events

def strokeEvents (caps : Bool) (c : Char) : List KeyEvent :=
  if needsShift caps c then
    [.press .leftShift, .press (.char c), .release (.char c), .release .leftShift]
  else [.press (.char c), .release (.char c)]

variable {arch : Arch} {caps : Bool} {c : Char} {line : List Char} {ls : List (List Char)}
  {events rest : List KeyEvent}

theorem map_lines (line : List Char) (keys : List (KeyEvent × Nat)) :
    (lines line keys).map Prod.fst = submitted line (keys.map Prod.fst) := by
  induction keys generalizing line with
  | nil => rfl
  | cons key keys ih =>
    rw [List.map_cons, lines, submitted]
    split
    · rw [List.map_cons, ih]
    · exact ih _

theorem submitted_append (h : ∀ event ∈ events, event ≠ .press .enter) (line : List Char) :
    submitted line (events ++ rest) = submitted (events.foldl edit line) rest := by
  induction events generalizing line with
  | nil => rfl
  | cons event events ih =>
    obtain ⟨hevent, hevents⟩ := List.forall_mem_cons.mp h
    rw [List.cons_append, submitted, if_neg hevent, ih hevents, List.foldl_cons]

theorem exists_printable (h : isPrintable c = true) : ∃ n : Fin 95, c = Char.ofNat (32 + n) := by
  obtain ⟨hlow, hhigh⟩ := Session.isPrintable_range h
  have hlow' : 32 ≤ c.toNat := hlow
  have hhigh' : c.toNat ≤ 126 := hhigh
  refine ⟨⟨c.toNat - 32, by omega⟩, ?_⟩
  rw [Nat.add_sub_cancel' hlow', Char.ofNat_toNat]

theorem feed_strokes (h : isPrintable c = true) (caps : Bool) :
    feed (atRest caps) (strokes caps c) = (strokeEvents caps c, atRest caps) := by
  have hall : ∀ n : Fin 95, ∀ caps : Bool, feed (atRest caps) (strokes caps (Char.ofNat (32 + n))) =
      (strokeEvents caps (Char.ofNat (32 + n)), atRest caps) := by
    decide +kernel
  obtain ⟨n, rfl⟩ := exists_printable h
  exact hall n caps

theorem terminalByteToKey_toUInt8 (h : isPrintable c = true) :
    terminalByteToKey c.toUInt8 = some (.press (.char c)) := by
  have hall : ∀ n : Fin 95, terminalByteToKey (Char.ofNat (32 + n)).toUInt8 =
      some (.press (.char (Char.ofNat (32 + n)))) := by
    decide +kernel
  obtain ⟨n, rfl⟩ := exists_printable h
  exact hall n

/-- Whatever else the keyboard sends for a character, the editor takes the character. -/
theorem foldl_strokeEvents (caps : Bool) (c : Char) (line : List Char) :
    (strokeEvents caps c).foldl edit line = edit line (.press (.char c)) := by
  rw [strokeEvents]
  split <;> rfl

theorem strokeEvents_ne_enter (caps : Bool) (c : Char) :
    ∀ event ∈ strokeEvents caps c, event ≠ .press .enter := by
  rw [strokeEvents]
  split <;> simp

theorem foldl_edit_chars (before : List Char) (hline : ∀ c ∈ line, isPrintable c = true)
    (hlen : (before ++ line).length ≤ maxLineChars) :
    (line.map fun c => KeyEvent.press (.char c)).foldl edit before = before ++ line := by
  induction line generalizing before with
  | nil => exact (List.append_nil before).symm
  | cons c line ih =>
    obtain ⟨hc, hline⟩ := List.forall_mem_cons.mp hline
    have hassoc : before ++ c :: line = before ++ [c] ++ line := by simp
    rw [hassoc] at hlen ⊢
    have hroom : before.length < maxLineChars := by
      simp only [List.length_append, List.length_singleton] at hlen
      omega
    rw [List.map_cons, List.foldl_cons, edit_char, if_pos ⟨hc, hroom⟩]
    exact ih _ hline hlen

theorem foldl_edit_strokes (caps : Bool) (line before : List Char) :
    (line.flatMap (strokeEvents caps)).foldl edit before =
      (line.map fun c => KeyEvent.press (.char c)).foldl edit before := by
  induction line generalizing before with
  | nil => rfl
  | cons c line ih =>
    rw [List.flatMap_cons, List.foldl_append, foldl_strokeEvents, ih, List.map_cons,
      List.foldl_cons]

theorem feed_chars (caps : Bool) (hline : ∀ c ∈ line, isPrintable c = true) :
    feed (atRest caps) (line.flatMap (strokes caps)) =
      (line.flatMap (strokeEvents caps), atRest caps) := by
  induction line with
  | nil => rfl
  | cons c line ih =>
    obtain ⟨hc, hline⟩ := List.forall_mem_cons.mp hline
    rw [List.flatMap_cons, feed, Mealy.feed_append, ← feed, feed_strokes hc, ih hline,
      List.flatMap_cons]

theorem feed_ps2Line (caps : Bool) (hline : ∀ c ∈ line, isPrintable c = true) :
    feed (atRest caps) (ps2Line caps line) =
      (line.flatMap (strokeEvents caps) ++ [.press .enter, .release .enter], atRest caps) := by
  have henter : ∀ caps, feed (atRest caps) [0x1C, 0x9C] =
      ([.press .enter, .release .enter], atRest caps) := by
    decide +kernel
  rw [ps2Line, feed, Mealy.feed_append, ← feed, feed_chars caps hline, henter]

theorem submitted_ps2 (caps : Bool) (hls : ∀ line ∈ ls, Typeable line) :
    submitted [] (feed (atRest caps) (ls.flatMap (ps2Line caps))).1 = ls := by
  induction ls with
  | nil => rfl
  | cons line ls ih =>
    obtain ⟨⟨hlen, hline⟩, hls⟩ := List.forall_mem_cons.mp hls
    have hkeys : ∀ event ∈ line.flatMap (strokeEvents caps), event ≠ .press .enter := by
      intro event hevent
      obtain ⟨c, -, hc⟩ := List.mem_flatMap.mp hevent
      exact strokeEvents_ne_enter caps c event hc
    rw [List.flatMap_cons, feed, Mealy.feed_append, ← feed, feed_ps2Line caps hline]
    dsimp only
    rw [List.append_assoc, submitted_append hkeys, foldl_edit_strokes,
      foldl_edit_chars [] hline hlen]
    exact congrArg (line :: ·) (ih hls)

theorem submitted_terminal (hls : ∀ line ∈ ls, Typeable line) :
    submitted [] ((ls.flatMap terminalLine).filterMap terminalByteToKey) = ls := by
  induction ls with
  | nil => rfl
  | cons line ls ih =>
    obtain ⟨⟨hlen, hline⟩, hls⟩ := List.forall_mem_cons.mp hls
    have hchars : (line.map Char.toUInt8).filterMap terminalByteToKey =
        line.map fun c => KeyEvent.press (.char c) := by
      rw [List.filterMap_map, ← List.filterMap_eq_map]
      exact List.filterMap_congr fun c hc => terminalByteToKey_toUInt8 (hline c hc)
    have hkeys : ∀ event ∈ line.map fun c => KeyEvent.press (.char c), event ≠ .press .enter := by
      simp
    rw [List.flatMap_cons, terminalLine, List.filterMap_append, List.filterMap_append, hchars,
      List.append_assoc, submitted_append hkeys, foldl_edit_chars [] hline hlen]
    exact congrArg (line :: ·) (ih hls)

/-- Lines typed on the PS/2 keyboard, with Caps Lock on or off, or on a serial terminal, run as
they were typed, up to the first that stops the shell or opens a window. -/
theorem typed_lines_run (arch : Arch) (caps : Bool) (hls : ∀ line ∈ ls, Typeable line)
    (keys : List (KeyEvent × Nat))
    (hkeys : keys.map Prod.fst = (feed (atRest caps) (ls.flatMap (ps2Line caps))).1 ∨
      keys.map Prod.fst = (ls.flatMap terminalLine).filterMap terminalByteToKey) :
    (Loop.new.runToWindow arch keys).ran.map Prod.fst =
      Lists.upTo (fun line => stops line || opens line) ls := by
  have hlines : (lines [] keys).map Prod.fst = ls := by
    rw [map_lines]
    rcases hkeys with h | h
    · rw [h, submitted_ps2 caps hls]
    · rw [h, submitted_terminal hls]
  have hran : (Loop.new.runToWindow arch keys).ran = _ :=
    Loop.ran_runToWindow arch rfl keys
  have hnil : Loop.new.ran = [] := rfl
  have hempty : Loop.new.editor.line = [] := rfl
  rw [hran, hnil, hempty, List.nil_append,
    Lists.map_upTo Prod.fst fun line => stops line || opens line, hlines]

theorem typed_halt_runs :
    (Loop.new.runToWindow .x86_64 ((feed (atRest true)
      (["echo Hi".toList, "halt".toList, "arch".toList].flatMap (ps2Line true))).1.map
        fun event => (event, 0))).ran.map Prod.fst = ["echo Hi".toList, "halt".toList] := by
  have hls : ∀ line ∈ ["echo Hi".toList, "halt".toList, "arch".toList], Typeable line := by
    simp only [Typeable, ← List.all_eq_true]
    decide
  have hfst : ∀ events : List KeyEvent,
      (events.map fun event => (event, 0)).map Prod.fst = events := fun events => by
    rw [List.map_map]
    exact List.map_id events
  have hran := typed_lines_run .x86_64 true hls _ (.inl (hfst _))
  exact hran.trans (by decide +kernel)

end FerricK.Shell
