import FerricK.Irq.Guard
import FerricK.Lib.Lists
import FerricK.Shell.Command
import FerricK.Shell.Session

namespace FerricK.Shell

/-- What the machine sees of the shell.  `print` is one `print!`, which goes to the screen and to
the serial port, `mirror` goes to the serial port alone. -/
inductive Effect
  | print (s : List Char)
  | mirror (s : List Char)
  | editLine (line : List Char)
  | beginEdit
  | endEdit
  | renderNow
  | clearScreen
  | runClock
  | runGui
  | runMonitor
  | runKeyboard
  | panic (message : String)
  | exitQemu (status : UInt8)
  deriving DecidableEq

/-- The characters that fit into a buffer of `room` bytes, up to the first that does not. -/
def fitting : Nat → List Char → List Char
  | _, [] => []
  | room, c :: chars => if room < c.utf8Size then [] else c :: fitting (room - c.utf8Size) chars

def putChars (chars : List Char) : List Effect :=
  let s := fitting (maxLineChars * 4) chars
  if s = [] then [] else [.print s]

def println (s : List Char) : List Effect := [.print s, .print ['\n']]

def statusShellHalt : UInt8 := 0x82

def nanosPerSec : Nat := 1000000000

def helpLines : List String := [
  "Ferric-K commands:",
  "  help     show this list",
  "  clear    clear the screen",
  "  echo     print the arguments",
  "  uptime   show time since boot",
  "  arch     show the CPU architecture",
  "  panic    panic the kernel (test hook)",
  "  clock    open the graphical clock window",
  "  gui      launch the Slint GUI",
  "  monitor  live hardware monitor",
  "  keyboard  on-screen keyboard (stub pointer)",
  "  halt     power off the machine"]

def uptimeText (ns : Nat) : List Char :=
  let ds := ns / nanosPerSec
  let dms := ns % nanosPerSec / 1000000
  "Uptime: ".toList ++ Nat.toDigits 10 ds ++ ['.'] ++
    List.leftpad 3 '0' (Nat.toDigits 10 dms) ++ ['s']

def archText : Arch → List Char
  | .x86_64 => "x86_64".toList
  | .aarch64 => "aarch64".toList

/-- A command, `ns` after boot; after `panic!` and `exit_qemu` nothing follows. -/
def runCommand (arch : Arch) (ns : Nat) (line : List Char) : List Effect :=
  match parseCommand line with
  | .empty => []
  | .help => helpLines.flatMap fun s => println s.toList
  | .clear => [.clearScreen]
  | .echo rest => putChars rest ++ [.print ['\n']]
  | .uptime => println (uptimeText ns)
  | .arch => println (archText arch)
  | .panic => [.panic "panic at user request (shell command)"]
  | .clock => [.runClock, .renderNow]
  | .gui => [.runGui, .renderNow]
  | .monitor => [.runMonitor, .renderNow]
  | .keyboard => [.runKeyboard, .renderNow]
  | .halt => println "HALT".toList ++ [.exitQemu statusShellHalt]
  | .unknown name =>
    [.print "unknown command '".toList] ++ putChars name ++ println "'".toList

def stops (line : List Char) : Bool :=
  match parseCommand line with
  | .panic | .halt => true
  | _ => false

def opens (line : List Char) : Bool :=
  match parseCommand line with
  | .clock | .gui | .monitor | .keyboard => true
  | _ => false

def newPrompt : List Effect := [.print "ferric-k$ ".toList, .renderNow, .beginEdit]

/-- `shell_loop` between two keys: all it has done so far, and the lines it has run with the
times it ran them at. -/
structure Loop where
  editor : LineEditor
  out : List Effect
  ran : List (List Char × Nat)
  stopped : Bool

namespace Loop

def new : Loop where
  editor := LineEditor.new
  out := newPrompt
  ran := []
  stopped := false

/-- One key that `next_key` gives, `ns` after boot.  The keys that the clock and the other
graphical commands take for themselves are not among these. -/
def step (arch : Arch) (s : Loop) (key : KeyEvent × Nat) : Loop :=
  if s.stopped then s else
  match s.editor.handle key.1 with
  | (.inserted, editor) =>
    { s with
      editor
      out := s.out ++ (editor.line.getLast?.elim [] fun c => [.mirror [c]]) ++
        [.editLine editor.line] }
  | (.erased, editor) =>
    { s with
      editor
      out := s.out ++ [.mirror ['\x08', ' ', '\x08'], .editLine editor.line] }
  | (.submitted, editor) =>
    let answer := .endEdit :: .print ['\n'] :: runCommand arch key.2 editor.line
    if stops editor.line then
      { editor, out := s.out ++ answer, ran := s.ran ++ [(editor.line, key.2)], stopped := true }
    else
      { editor := editor.clear
        out := s.out ++ answer ++ newPrompt
        ran := s.ran ++ [(editor.line, key.2)]
        stopped := false }
  | (.ignored, editor) => { s with editor }

def run (arch : Arch) (s : Loop) (keys : List (KeyEvent × Nat)) : Loop := keys.foldl (step arch) s

/-- The keys of the devices as long as all of them are the shell's: those after a command that
opens a window go to the window. -/
def runToWindow (arch : Arch) (s : Loop) : List (KeyEvent × Nat) → Loop
  | [] => s
  | key :: keys =>
    if (s.editor.handle key.1).1 = .submitted ∧ opens s.editor.line then s.step arch key
    else runToWindow arch (s.step arch key) keys

end Loop

def lines : List Char → List (KeyEvent × Nat) → List (List Char × Nat)
  | _, [] => []
  | line, (event, ns) :: keys =>
    if event = .press .enter then (line, ns) :: lines [] keys
    else lines (edit line event) keys

def upToStop (ls : List (List Char × Nat)) : List (List Char × Nat) :=
  Lists.upTo (fun l => stops l.1) ls

def answer (arch : Arch) (line : List Char) (ns : Nat) : List Effect :=
  match parseCommand line with
  | .echo rest => (if rest = [] then [] else [.print rest]) ++ [.print ['\n']]
  | .unknown name =>
    [.print "unknown command '".toList] ++ (if name = [] then [] else [.print name]) ++
      println "'".toList
  | _ => runCommand arch ns line

def Effect.isEcho : Effect → Bool
  | .mirror _ | .editLine _ => true
  | _ => false

def transcript (arch : Arch) (ls : List (List Char × Nat)) : List Effect :=
  ls.flatMap fun l =>
    .endEdit :: .print ['\n'] :: answer arch l.1 l.2 ++ if stops l.1 then [] else newPrompt

variable {arch : Arch} {line rest : List Char} {ns room : Nat} {event : KeyEvent}

theorem fitting_eq {chars : List Char} (h : 4 * chars.length ≤ room) :
    fitting room chars = chars := by
  induction chars generalizing room with
  | nil => rfl
  | cons c chars ih =>
    have hsize := c.utf8Size_le_four
    rw [List.length_cons] at h
    rw [fitting, if_neg (by omega), ih (by omega)]

theorem dispatch_argument {name arg : List Char}
    (h : dispatch name rest = .echo arg ∨ dispatch name rest = .unknown arg) :
    arg = rest ∨ arg = name := by
  have hbuiltins : ∀ b ∈ builtins, (b.2 rest = .echo arg → arg = rest) ∧
      b.2 rest ≠ .unknown arg := by
    simp [builtins, eq_comm]
  rw [dispatch] at h
  cases hfind : builtins.find? fun b => isName name b.1 with
  | none =>
    rw [hfind] at h
    rcases h with h | h
    · cases h
    · exact .inr (Command.unknown.inj h).symm
  | some b =>
    rw [hfind] at h
    obtain ⟨hecho, hunknown⟩ := hbuiltins b (List.mem_of_find?_eq_some hfind)
    exact .inl (hecho (h.resolve_right hunknown))

theorem length_argument_le {arg : List Char}
    (h : parseCommand line = .echo arg ∨ parseCommand line = .unknown arg) :
    arg.length ≤ line.length := by
  have hsolid : ∃ c ∈ line, isWhitespace c = false := by
    by_contra hblank
    have hempty := (parseCommand_empty_iff line).mpr fun c hc => by
      by_contra hc'
      exact hblank ⟨c, hc, Bool.eq_false_iff.mpr hc'⟩
    rw [hempty] at h
    rcases h with h | h <;> cases h
  obtain ⟨pre, name, tail, rfl, hfirst⟩ := Words.exists_firstRun hsolid
  rw [parseCommand_eq hfirst] at h
  have htrim := Words.length_trim_le isWhitespace tail
  simp only [List.length_append]
  obtain rfl | rfl := dispatch_argument h
  · rw [trim]
    omega
  · omega

theorem putChars_eq {chars : List Char} (h : chars.length ≤ maxLineChars) :
    putChars chars = if chars = [] then [] else [.print chars] := by
  rw [putChars, fitting_eq (by omega)]

/-- No line is too long for the buffer its argument is printed from. -/
theorem runCommand_eq (h : line.length ≤ maxLineChars) :
    runCommand arch ns line = answer arch line ns := by
  rw [answer, runCommand]
  cases hcommand : parseCommand line with
  | echo rest =>
    show putChars rest ++ _ = _
    rw [putChars_eq ((length_argument_le (.inl hcommand)).trans h)]
  | unknown name =>
    show _ ++ putChars name ++ _ = _
    rw [putChars_eq ((length_argument_le (.inr hcommand)).trans h)]
  | _ => rfl

@[simp] theorem isEcho_print (s : List Char) : (Effect.print s).isEcho = false := rfl
@[simp] theorem isEcho_mirror (s : List Char) : (Effect.mirror s).isEcho = true := rfl
@[simp] theorem isEcho_editLine (line : List Char) : (Effect.editLine line).isEcho = true := rfl
@[simp] theorem isEcho_endEdit : Effect.endEdit.isEcho = false := rfl

theorem isEcho_println (s : List Char) : ∀ effect ∈ println s, effect.isEcho = false := by
  simp [println]

theorem isEcho_answer (arch : Arch) (line : List Char) (ns : Nat) :
    ∀ effect ∈ answer arch line ns, effect.isEcho = false := by
  have hargument : ∀ rest : List Char, ∀ effect ∈ if rest = [] then [] else [Effect.print rest],
      effect.isEcho = false := by
    intro rest effect h
    split at h
    · exact absurd h List.not_mem_nil
    · rw [List.mem_singleton.mp h]
      rfl
  rw [answer, runCommand]
  cases parseCommand line with
  | help =>
    intro effect h
    obtain ⟨s, -, hs⟩ := List.mem_flatMap.mp h
    exact isEcho_println _ effect hs
  | echo rest => exact List.forall_mem_append.mpr ⟨hargument rest, by simp [Effect.isEcho]⟩
  | unknown name =>
    exact List.forall_mem_append.mpr ⟨List.forall_mem_append.mpr
      ⟨by simp [Effect.isEcho], hargument name⟩, isEcho_println _⟩
  | halt => exact List.forall_mem_append.mpr ⟨isEcho_println _, by simp [Effect.isEcho]⟩
  | uptime | arch => exact isEcho_println _
  | _ => simp [Effect.isEcho]

namespace Loop

def answers (s : Loop) : List Effect := s.out.filter fun effect => !effect.isEcho

variable {s : Loop}

theorem step_edit (arch : Arch) (ns : Nat) (hs : s.stopped = false)
    (hevent : event ≠ .press .enter) :
    (s.step arch (event, ns)).editor.line = edit s.editor.line event ∧
      (s.step arch (event, ns)).ran = s.ran ∧ (s.step arch (event, ns)).stopped = false ∧
      (s.step arch (event, ns)).answers = s.answers := by
  have hcases := Session.handle_edit s.editor.view hevent
  rw [s.editor.view_handle event] at hcases
  have hline : s.editor.view.line = s.editor.line := rfl
  rw [hline] at hcases
  simp only [step, hs, Bool.false_eq_true, if_false, answers]
  cases hhandle : s.editor.handle event with
  | mk action editor =>
    rw [hhandle] at hcases
    obtain ⟨c, -, rfl, hnew, hedit⟩ | ⟨rfl, -, hnew, hedit⟩ | ⟨rfl, hnew, hedit⟩ := hcases
    · rw [hedit]
      refine ⟨hnew, rfl, rfl, ?_⟩
      have hlast : editor.line.getLast? = some c := by
        rw [show editor.line = _ from hnew, List.getLast?_concat]
      simp [hlast]
    · rw [hedit]
      exact ⟨hnew, rfl, rfl, by simp⟩
    · rw [hedit]
      exact ⟨hnew, rfl, rfl, rfl⟩

@[simp] theorem filter_newPrompt :
    newPrompt.filter (fun effect => !effect.isEcho) = newPrompt := rfl

@[simp] theorem filter_answer (arch : Arch) (line : List Char) (ns : Nat) :
    (answer arch line ns).filter (fun effect => !effect.isEcho) = answer arch line ns :=
  List.filter_eq_self.mpr fun effect h => by rw [isEcho_answer arch line ns effect h]; rfl

theorem step_enter (arch : Arch) (ns : Nat) (hs : s.stopped = false) :
    (s.step arch (.press .enter, ns)).stopped = stops s.editor.line ∧
      (s.step arch (.press .enter, ns)).ran = s.ran ++ [(s.editor.line, ns)] ∧
      (s.step arch (.press .enter, ns)).answers =
        s.answers ++ transcript arch [(s.editor.line, ns)] ∧
      (stops s.editor.line = false → (s.step arch (.press .enter, ns)).editor.line = []) := by
  have hlen : s.editor.line.length ≤ maxLineChars := by
    rw [LineEditor.length_line]
    exact s.editor.len_le
  have hhandle : s.editor.handle (.press .enter) = (.submitted, s.editor) := rfl
  simp only [step, hs, Bool.false_eq_true, if_false, hhandle, answers, transcript,
    runCommand_eq hlen]
  cases hstops : stops s.editor.line with
  | true => simp [hstops]
  | false =>
    have hclear : s.editor.clear.line = [] := List.take_zero
    simp [hstops, hclear]

theorem run_stopped (hs : s.stopped = true) (keys : List (KeyEvent × Nat)) :
    s.run arch keys = s := by
  induction keys with
  | nil => rfl
  | cons key keys ih =>
    rw [run, List.foldl_cons, step, if_pos hs]
    exact ih

theorem run_answers (arch : Arch) (hs : s.stopped = false) (keys : List (KeyEvent × Nat)) :
    (s.run arch keys).ran = s.ran ++ upToStop (lines s.editor.line keys) ∧
      (s.run arch keys).answers =
        s.answers ++ transcript arch (upToStop (lines s.editor.line keys)) := by
  induction keys generalizing s with
  | nil => simp [run, lines, upToStop, Lists.upTo, transcript]
  | cons key keys ih =>
    obtain ⟨event, ns⟩ := key
    rw [run, List.foldl_cons, ← run]
    by_cases hevent : event = .press .enter
    · rw [hevent, lines, if_pos rfl, upToStop, Lists.upTo, ← upToStop]
      obtain ⟨hstopped, hran, hanswers, hline⟩ := step_enter arch ns hs
      cases hstops : stops s.editor.line with
      | true =>
        rw [run_stopped (hstopped.trans hstops), hran, hanswers]
        exact ⟨rfl, rfl⟩
      | false =>
        obtain ⟨hran', hanswers'⟩ := ih (hstopped.trans hstops)
        rw [hran', hanswers', hran, hanswers, hline hstops]
        simp [transcript]
    · rw [lines, if_neg hevent]
      obtain ⟨hline, hran, hstopped, hanswers⟩ := step_edit arch ns hs hevent
      obtain ⟨hran', hanswers'⟩ := ih hstopped
      rw [hran', hanswers', hran, hanswers, hline]
      exact ⟨rfl, rfl⟩

theorem runToWindow_stopped (hs : s.stopped = true) (keys : List (KeyEvent × Nat)) :
    s.runToWindow arch keys = s := by
  have hstep : ∀ key, s.step arch key = s := fun key => by rw [step, if_pos hs]
  induction keys with
  | nil => rfl
  | cons key keys ih =>
    rw [runToWindow, hstep, ih, ite_self]

theorem ran_runToWindow (arch : Arch) (hs : s.stopped = false) (keys : List (KeyEvent × Nat)) :
    (s.runToWindow arch keys).ran =
      s.ran ++ Lists.upTo (fun l => stops l.1 || opens l.1) (lines s.editor.line keys) := by
  induction keys generalizing s with
  | nil => exact (List.append_nil _).symm
  | cons key keys ih =>
    obtain ⟨event, ns⟩ := key
    have hsubmitted : (s.editor.handle event).1 = .submitted ↔ event = .press .enter :=
      Session.handle_submitted s.editor
    rw [runToWindow]
    by_cases hevent : event = .press .enter
    · rw [hevent, lines, if_pos rfl, Lists.upTo]
      obtain ⟨hstopped, hran, -, hline⟩ := step_enter arch ns hs
      cases hopens : opens s.editor.line with
      | true => rw [if_pos ⟨hevent ▸ hsubmitted.mpr hevent, rfl⟩, hran, Bool.or_true, if_pos rfl]
      | false =>
        rw [if_neg (by simp), Bool.or_false]
        cases hstops : stops s.editor.line with
        | true => rw [runToWindow_stopped (hstopped.trans hstops), hran, if_pos rfl]
        | false =>
          rw [ih (hstopped.trans hstops), hran, hline hstops, if_neg (by simp),
            List.append_assoc, List.singleton_append]
    · rw [if_neg fun h => hevent (hsubmitted.mp h.1), lines, if_neg hevent]
      obtain ⟨hline, hran, hstopped, -⟩ := step_edit arch ns hs hevent
      rw [ih hstopped, hran, hline]

end Loop

/-- Whatever the keys, the shell runs the lines they submit, each once, in order and as the
reference edits them, up to the first `panic` or `halt`, and but for the echo it has printed a
prompt and the answers to these lines. -/
theorem shell_transcript (arch : Arch) (keys : List (KeyEvent × Nat)) :
    (Loop.new.run arch keys).ran = upToStop (lines [] keys) ∧
      (Loop.new.run arch keys).answers =
        newPrompt ++ transcript arch (upToStop (lines [] keys)) := by
  have hline : Loop.new.editor.line = [] := rfl
  have hnew := Loop.run_answers (s := Loop.new) arch rfl keys
  rw [hline] at hnew
  exact hnew

end FerricK.Shell
