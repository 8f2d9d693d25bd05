import FerricK.Monitor.Text
import Mathlib.Data.List.Chain
import Mathlib.Data.List.Infix

/-! The smoke run: a script typed into the guest as markers turn up in its log, and the check of
what it left behind. -/

namespace FerricK.Smoke

def bootMarker : String := "BOOT OK"
def framebufferMarker : String := "FRAMEBUFFER OK"
def consoleMarker : String := "Hello from Ferric-K!"
def slintMarker : String := "SLINT OK"
def guiExitMarker : String := "GUI EXIT OK"
def monitorMarker : String := "MONITOR OK"
def monitorExitMarker : String := "MONITOR EXIT OK"
def keyboardOkMarker : String := "KEYBOARD OK"
def keyboardTextAbMarker : String := "KEYBOARD TEXT ab\n"
def keyboardSelMarker : String := "KEYBOARD SEL 0 1\n"
def keyboardTextTappedMarker : String := "KEYBOARD TEXT ab1"
def keyboardExitMarker : String := "KEYBOARD EXIT OK"
def helpResponseMarker : String := "power off"
def unknownResponseMarker : String := "unknown command"
def uptimeResponseMarker : String := "Uptime:"
def haltResponseMarker : String := "HALT"

def retryGrace : Nat := 10000

def maxAttempts : Nat := 3

inductive Arch
  | x64
  | arm64

/-- Each step waits for its marker and types its command. -/
abbrev Script := List (String × String)

def x64Script : Script := [
  (consoleMarker, "gui\r"),
  (slintMarker, "\x1B"),
  (guiExitMarker, "monitor\r"),
  (monitorMarker, "\x1B"),
  (monitorExitMarker, "keyboard\r"),
  (keyboardOkMarker, "ab"),
  (keyboardTextAbMarker, "[right]"),
  (keyboardSelMarker, "\r"),
  (keyboardTextTappedMarker, "\x1B"),
  (keyboardExitMarker, "help\r"),
  (helpResponseMarker, "xyz\r"),
  (unknownResponseMarker, "uptime\r"),
  (uptimeResponseMarker, "halt\r")]

def arm64Script : Script := [
  (consoleMarker, "gui\r"),
  (slintMarker, "\x1B"),
  (guiExitMarker, "monitor\r"),
  (monitorMarker, "\x1B"),
  (monitorExitMarker, "keyboard\r"),
  (keyboardOkMarker, "ab"),
  (keyboardTextAbMarker, "\x1B"),
  (keyboardExitMarker, "help\r"),
  (helpResponseMarker, "xyz\r"),
  (unknownResponseMarker, "uptime\r"),
  (uptimeResponseMarker, "halt\r")]

def script : Arch → Script
  | .x64 => x64Script
  | .arm64 => arm64Script

def normalize : List Char → List Char
  | '\r' :: '\n' :: rest => '\n' :: normalize rest
  | c :: rest => c :: normalize rest
  | [] => []

/-- A log that is not text yet has no markers. -/
def logHasMarker (log : List UInt8) (marker : String) : Bool :=
  match fromUtf8 log with
  | none => false
  | some content => decide (marker.toList <:+: normalize content)

/-- What one turn of the wait finds: the log, the time in milliseconds, and whether the input
channel takes a command. -/
structure Look where
  log : List UInt8
  now : Nat
  writable : Bool

structure Driver where
  step : Nat
  typed : Bool
  typedAt : Nat
  attempts : Nat

def Driver.new (now : Nat) : Driver where
  step := 0
  typed := false
  typedAt := now
  attempts := 0

structure Sent where
  step : Nat
  command : String
  look : Look

abbrev Injected := Bool × Driver × Option Sent

def sendInput (command : String) (d : Driver) (look : Look) (next : Driver) : Option Injected :=
  if look.writable then some (false, next, some ⟨d.step, command, look⟩) else none

/-- `None` where the channel fails. -/
def inject (script : Script) (d : Driver) (look : Look) : Option Injected :=
  match script[d.step]? with
  | none => some (true, d, none)
  | some (prereq, command) =>
    if !logHasMarker look.log prereq then some (false, d, none)
    else if !d.typed then
      sendInput command d look { d with typed := true, typedAt := look.now, attempts := 1 }
    else if script[d.step + 1]?.any fun next => logHasMarker look.log next.1 then
      let d := { d with step := d.step + 1, typed := false, attempts := 0 }
      some (decide (script.length ≤ d.step), d, none)
    else if 0 < d.step ∧ d.attempts < maxAttempts ∧ retryGrace ≤ look.now - d.typedAt then
      sendInput command d look { d with typedAt := look.now, attempts := d.attempts + 1 }
    else some (false, d, none)

inductive Turn
  | exited (code : Int)
  | waitFailed
  | running (look : Look)

inductive Outcome
  | exited (code : Int)
  | failed
  | timedOut
  | waiting (d : Driver) (done : Bool)

def waitForExit (script : Script) (deadline : Nat) :
    Driver → Bool → List Turn → Outcome × List Sent
  | d, done, [] => (.waiting d done, [])
  | _, _, .exited code :: _ => (.exited code, [])
  | _, _, .waitFailed :: _ => (.failed, [])
  | d, done, .running look :: turns =>
    if deadline ≤ look.now then (.timedOut, [])
    else if done then waitForExit script deadline d done turns
    else
      match inject script d look with
      | none => (.failed, [])
      | some (done, d, sent) =>
        let (outcome, rest) := waitForExit script deadline d done turns
        (outcome, sent.toList ++ rest)

def smokeMarkers : Arch → List String
  | .x64 => common ++ [keyboardSelMarker, keyboardTextTappedMarker]
  | .arm64 => common
where
  common := [
    bootMarker, framebufferMarker, consoleMarker, slintMarker, guiExitMarker, monitorMarker,
    monitorExitMarker, keyboardOkMarker, keyboardTextAbMarker, keyboardExitMarker,
    helpResponseMarker, unknownResponseMarker, uptimeResponseMarker, haltResponseMarker]

inductive Failure
  | lacks (marker : String)
  | exitCode (code expected : Int)

def serialText (log : List UInt8) : List Char := normalize ((fromUtf8 log).getD [])

def assertSmoke (code expected : Int) (log : List UInt8) (arch : Arch) : Except Failure Unit :=
  match (smokeMarkers arch).find? fun marker => ¬ marker.toList <:+: serialText log with
  | some marker => .error (.lacks marker)
  | none => if code ≠ expected then .error (.exitCode code expected) else .ok ()

/-- Commands go in the order of the script; a command is typed again only after a while, and the
first one never. -/
def Follows (s s' : Sent) : Prop :=
  s'.step = s.step + 1 ∨
    s'.step = s.step ∧ 0 < s.step ∧ retryGrace ≤ s'.look.now - s.look.now

def times (k : Nat) (sent : List Sent) : Nat := sent.countP fun s => s.step = k

structure Sound (script : Script) (sent : List Sent) : Prop where
  ready : ∀ s ∈ sent, ∃ marker, script[s.step]? = some (marker, s.command) ∧
    logHasMarker s.look.log marker
  first : ∀ s ∈ sent.head?, s.step = 0
  order : sent.IsChain Follows
  few : ∀ k, times k sent ≤ if k = 0 then 1 else maxAttempts

inductive Stage (d : Driver) (sent : List Sent) : Prop
  | start (hstep : d.step = 0) (htyped : d.typed = false) (hsent : sent = [])
  | next {front : List Sent} {s : Sent} (htyped : d.typed = false) (hsent : sent = front ++ [s])
      (hstep : d.step = s.step + 1)
  | typed {front : List Sent} {s : Sent} (htyped : d.typed = true) (hsent : sent = front ++ [s])
      (hstep : d.step = s.step) (hat : d.typedAt = s.look.now)
      (htimes : times d.step sent = d.attempts)

structure Inv (script : Script) (d : Driver) (sent : List Sent) : Prop where
  sound : Sound script sent
  le : ∀ s ∈ sent, s.step ≤ d.step
  lt : d.typed = false → ∀ s ∈ sent, s.step < d.step
  stage : Stage d sent

variable {sc : Script} {d d' : Driver} {look : Look} {sent : List Sent} {s : Sent} {done : Bool}
  {o : Option Sent}

theorem times_append (k : Nat) (sent : List Sent) (s : Sent) :
    times k (sent ++ [s]) = times k sent + if s.step = k then 1 else 0 := by
  simp [times, List.countP_append, List.countP_singleton]

theorem times_eq_zero {k : Nat} (h : ∀ s ∈ sent, s.step < k) : times k sent = 0 := by
  rw [times, List.countP_eq_zero]
  intro s hs
  have := h s hs
  simp only [decide_eq_true_eq]
  omega

theorem Sound.append (h : Sound sc sent) (marker : String)
    (hready : sc[s.step]? = some (marker, s.command) ∧ logHasMarker s.look.log marker)
    (hfirst : sent = [] → s.step = 0) (horder : ∀ s' ∈ sent.getLast?, Follows s' s)
    (hfew : times s.step (sent ++ [s]) ≤ if s.step = 0 then 1 else maxAttempts) :
    Sound sc (sent ++ [s]) where
  ready s' hs' := by
    rcases List.mem_append.mp hs' with hs' | hs'
    · exact h.ready s' hs'
    · obtain rfl := List.mem_singleton.mp hs'
      exact ⟨marker, hready⟩
  first s' hs' := by
    cases sent with
    | nil =>
      obtain rfl : s = s' := by simpa using hs'
      exact hfirst rfl
    | cons s₀ sent => exact h.first s' (by simpa using hs')
  order := by
    refine List.isChain_append.mpr ⟨h.order, List.isChain_singleton _, ?_⟩
    intro x hx y hy
    obtain rfl : s = y := by simpa using hy
    exact horder x hx
  few k := by
    rcases eq_or_ne s.step k with rfl | hne
    · exact hfew
    · rw [times_append, if_neg hne]
      exact h.few k

inductive Does (sc : Script) (d : Driver) (look : Look) : Bool → Driver → Option Sent → Prop
  | through (hstep : sc.length ≤ d.step) : Does sc d look true d none
  | waits : Does sc d look false d none
  | types {marker command : String} (hready : sc[d.step]? = some (marker, command))
      (hmarker : logHasMarker look.log marker) (htyped : d.typed = false) :
      Does sc d look false { d with typed := true, typedAt := look.now, attempts := 1 }
        (some ⟨d.step, command, look⟩)
  | advances (htyped : d.typed = true) (hstep : d.step + 1 < sc.length) :
      Does sc d look false { d with step := d.step + 1, typed := false, attempts := 0 } none
  | types_again {marker command : String} (hready : sc[d.step]? = some (marker, command))
      (hmarker : logHasMarker look.log marker) (htyped : d.typed = true) (hpos : 0 < d.step)
      (hfew : d.attempts < maxAttempts) (hgrace : retryGrace ≤ look.now - d.typedAt) :
      Does sc d look false { d with typedAt := look.now, attempts := d.attempts + 1 }
        (some ⟨d.step, command, look⟩)

theorem sendInput_eq_some {command : String} {next : Driver}
    (h : sendInput command d look next = some (done, d', o)) :
    done = false ∧ d' = next ∧ o = some ⟨d.step, command, look⟩ := by
  simp only [sendInput, Option.ite_none_right_eq_some, Option.some.injEq, Prod.mk.injEq] at h
  exact ⟨h.2.1.symm, h.2.2.1.symm, h.2.2.2.symm⟩

theorem does_of_inject (h : inject sc d look = some (done, d', o)) : Does sc d look done d' o := by
  unfold inject at h
  split at h
  · next hnone =>
    cases h
    exact .through (List.getElem?_eq_none_iff.mp hnone)
  · next marker command hready =>
    split at h
    · cases h
      exact .waits
    · next hmarker =>
      have hmarker : logHasMarker look.log marker := by simpa using hmarker
      split at h
      · next htyped =>
        obtain ⟨rfl, rfl, rfl⟩ := sendInput_eq_some h
        exact .types hready hmarker (by simpa using htyped)
      · next htyped =>
        have htyped : d.typed = true := by simpa using htyped
        split at h
        · next hnext =>
          have hstep : d.step + 1 < sc.length := by
            by_contra hle
            simp [List.getElem?_eq_none (not_lt.mp hle)] at hnext
          simp only [Option.some.injEq, Prod.mk.injEq, decide_eq_false (not_le.mpr hstep)] at h
          obtain ⟨rfl, rfl, rfl⟩ := h
          exact .advances htyped hstep
        · split at h
          · next hagain =>
            obtain ⟨rfl, rfl, rfl⟩ := sendInput_eq_some h
            exact .types_again hready hmarker htyped hagain.1 hagain.2.1 hagain.2.2
          · cases h
            exact .waits

theorem Inv.new (sc : Script) (now : Nat) : Inv sc (Driver.new now) [] where
  sound := ⟨by simp, by simp, List.isChain_nil, by simp [times]⟩
  le := by simp
  lt := by simp
  stage := .start rfl rfl rfl

theorem Inv.types (inv : Inv sc d sent) {marker command : String}
    (hready : sc[d.step]? = some (marker, command)) (hmarker : logHasMarker look.log marker)
    (htyped : d.typed = false) :
    Inv sc { d with typed := true, typedAt := look.now, attempts := 1 }
      (sent ++ [⟨d.step, command, look⟩]) := by
  have htimes : times d.step (sent ++ [⟨d.step, command, look⟩]) = 1 := by
    rw [times_append, times_eq_zero (inv.lt htyped), if_pos rfl]
  refine ⟨inv.sound.append marker ⟨hready, hmarker⟩ ?_ ?_ ?_, ?_, by simp,
    .typed rfl rfl rfl rfl htimes⟩
  · intro hnil
    cases inv.stage with
    | start hstep => exact hstep
    | next _ hsent | typed _ hsent => simp [hsent] at hnil
  · intro s' hs'
    cases inv.stage with
    | start _ _ hsent => simp [hsent] at hs'
    | next _ hsent hstep =>
      obtain rfl : _ = s' := by simpa [hsent] using hs'
      exact Or.inl hstep
    | typed h => exact absurd (h.symm.trans htyped) (by decide)
  · rw [htimes]
    split <;> decide
  · exact List.forall_mem_append.mpr ⟨inv.le, by simp⟩

theorem Inv.types_again (inv : Inv sc d sent) {marker command : String}
    (hready : sc[d.step]? = some (marker, command)) (hmarker : logHasMarker look.log marker)
    (htyped : d.typed = true) (hpos : 0 < d.step) (hfew : d.attempts < maxAttempts)
    (hgrace : retryGrace ≤ look.now - d.typedAt) :
    Inv sc { d with typedAt := look.now, attempts := d.attempts + 1 }
      (sent ++ [⟨d.step, command, look⟩]) := by
  cases inv.stage with
  | start _ h | next h => exact absurd (h.symm.trans htyped) (by decide)
  | @typed front s _ hsent hstep hat htimes =>
    have htimes' : times d.step (sent ++ [⟨d.step, command, look⟩]) = d.attempts + 1 := by
      rw [times_append, htimes, if_pos rfl]
    refine ⟨inv.sound.append marker ⟨hready, hmarker⟩ ?_ ?_ ?_, ?_, ?_,
      .typed htyped rfl rfl rfl htimes'⟩
    · simp [hsent]
    · intro s' hs'
      obtain rfl : s = s' := by simpa [hsent] using hs'
      exact Or.inr ⟨hstep, hstep ▸ hpos, hat ▸ hgrace⟩
    · rw [htimes', if_neg (Nat.ne_of_gt hpos)]
      exact hfew
    · exact List.forall_mem_append.mpr ⟨inv.le, by simp⟩
    · intro h
      exact absurd (h.symm.trans htyped) (by decide)

theorem Inv.does (inv : Inv sc d sent) (h : Does sc d look done d' o) :
    Inv sc d' (sent ++ o.toList) := by
  cases h with
  | through | waits =>
    rw [Option.toList_none, List.append_nil]
    exact inv
  | types hready hmarker htyped => exact inv.types hready hmarker htyped
  | types_again hready hmarker htyped hpos hfew hgrace =>
    exact inv.types_again hready hmarker htyped hpos hfew hgrace
  | advances htyped hstep =>
    rw [Option.toList_none, List.append_nil]
    have hlt : ∀ s ∈ sent, s.step < d.step + 1 := fun s hs => Nat.lt_succ_of_le (inv.le s hs)
    refine ⟨inv.sound, fun s hs => (hlt s hs).le, fun _ => hlt, ?_⟩
    cases inv.stage with
    | start _ h | next h => exact absurd (h.symm.trans htyped) (by decide)
    | typed _ hsent hstep => exact .next rfl hsent (congrArg (· + 1) hstep)

theorem Inv.run (inv : Inv sc d sent) (deadline : Nat) (done : Bool) (turns : List Turn) :
    Sound sc (sent ++ (waitForExit sc deadline d done turns).2) := by
  induction turns generalizing d sent done with
  | nil => simpa [waitForExit] using inv.sound
  | cons turn turns ih =>
    cases turn with
    | exited code => simpa [waitForExit] using inv.sound
    | waitFailed => simpa [waitForExit] using inv.sound
    | running look =>
      rw [waitForExit]
      split
      · simpa using inv.sound
      · split
        · exact ih inv done
        · split
          · simpa using inv.sound
          · next done' d' o hinject =>
            rw [← List.append_assoc]
            exact ih (inv.does (does_of_inject hinject)) done'

/-- Whatever the guest writes and when, a smoke run types the commands of its script in order,
each with its marker in the log, the first one once and the others at most three times, ten
seconds apart. -/
theorem typed_in_order (sc : Script) (deadline started : Nat) (turns : List Turn) :
    Sound sc (waitForExit sc deadline (Driver.new started) false turns).2 := by
  simpa using (Inv.new sc started).run deadline false turns

theorem waitForExit_append (deadline : Nat) (done : Bool) (turns turns' : List Turn)
    (h : (waitForExit sc deadline d done turns).1 = .waiting d' false) :
    (waitForExit sc deadline d done (turns ++ turns')).1 =
      (waitForExit sc deadline d' false turns').1 := by
  induction turns generalizing d done with
  | nil =>
    cases h
    rfl
  | cons turn turns ih =>
    cases turn with
    | exited | waitFailed => cases h
    | running look =>
      rw [List.cons_append]
      simp only [waitForExit] at h ⊢
      split at h
      · cases h
      · next hnow =>
        rw [if_neg hnow]
        split at h
        · next hdone =>
          rw [if_pos hdone]
          exact ih done h
        · next hdone =>
          rw [if_neg hdone]
          split at h
          · cases h
          · next done' d'' o hinject =>
            exact ih done' h

def At (sc : Script) (started : Nat) (looks : Nat → Look) (n : Nat) (d : Driver) : Prop :=
  ∀ deadline, (∀ i < n, (looks i).now < deadline) →
    (waitForExit sc deadline (Driver.new started) false
      ((List.range n).map fun i => .running (looks i))).1 = .waiting d false

theorem At.succ {started n : Nat} {looks : Nat → Look} (h : At sc started looks n d)
    (hinject : inject sc d (looks n) = some (false, d', o)) :
    At sc started looks (n + 1) d' := by
  intro deadline hnow
  rw [List.range_succ, List.map_append,
    waitForExit_append _ _ _ _ (h deadline fun i hi => hnow i (Nat.lt_succ_of_lt hi))]
  simp [waitForExit, not_le.mpr (hnow n (Nat.lt_succ_self n)), hinject]

/-- A guest whose log only grows, and is text again whenever it was cut within a character, and
that answers each command with the next marker, sooner or later. -/
structure Answers (sc : Script) (started : Nat) (looks : Nat → Look) : Prop where
  writable : ∀ i, (looks i).writable = true
  grows : ∀ i, (looks i).log <+: (looks (i + 1)).log
  text : ∀ i, ∃ j ≥ i, (fromUtf8 (looks j).log).isSome
  boots : ∀ first ∈ sc.head?, ∃ i, logHasMarker (looks i).log first.1 = true
  answers : ∀ n d, At sc started looks n d → d.typed = true →
    ∀ next ∈ sc[d.step + 1]?, ∃ i, logHasMarker (looks i).log next.1 = true

/-- No marker ends in the half of a line's end that the next byte could make a newline of. -/
def Settled (sc : Script) : Prop := ∀ step ∈ sc, step.1.toList.getLast? ≠ some '\r'

/-- Whatever follows, only a return at the end of the text is not settled. -/
theorem normalize_prefix (a b : List Char) : ∃ kept,
    (normalize a = kept ∨ normalize a = kept ++ ['\r']) ∧ kept <+: normalize (a ++ b) := by
  fun_induction normalize a with
  | case1 rest ih =>
    obtain ⟨kept, hkept, happended⟩ := ih
    refine ⟨'\n' :: kept, hkept.imp (congrArg _) (congrArg _), ?_⟩
    exact (List.cons_prefix_cons.mpr ⟨rfl, happended⟩ :)
  | case2 c rest hne ih =>
    obtain ⟨kept, hkept, happended⟩ := ih
    cases rest with
    | nil =>
      by_cases hreturn : c = '\r'
      · exact ⟨[], .inr (by rw [hreturn]; rfl), List.nil_prefix⟩
      · refine ⟨[c], .inl rfl, ?_⟩
        rw [List.singleton_append, normalize]
        · exact List.cons_prefix_cons.mpr ⟨rfl, List.nil_prefix⟩
        · exact fun _ h => absurd h hreturn
    | cons c' rest =>
      refine ⟨c :: kept, hkept.imp (congrArg _) (congrArg _), ?_⟩
      rw [List.cons_append, normalize]
      · exact List.cons_prefix_cons.mpr ⟨rfl, happended⟩
      · rintro rest' rfl hrest
        obtain ⟨rfl, -⟩ := List.cons.inj hrest
        exact hne _ rfl rfl
  | case3 => exact ⟨[], .inl rfl, List.nil_prefix⟩

theorem logHasMarker_asBytes (content : List Char) (marker : String) :
    logHasMarker (asBytes content) marker = decide (marker.toList <:+: normalize content) := by
  rw [logHasMarker, fromUtf8_asBytes]

theorem isSome_of_logHasMarker {log : List UInt8} {marker : String}
    (h : logHasMarker log marker = true) : (fromUtf8 log).isSome := by
  cases hcontent : fromUtf8 log with
  | none => simp [logHasMarker, hcontent] at h
  | some => rfl

theorem logHasMarker_prefix {log log' : List UInt8} {marker : String} (happended : log <+: log')
    (htext : (fromUtf8 log').isSome) (hend : marker.toList.getLast? ≠ some '\r')
    (h : logHasMarker log marker = true) : logHasMarker log' marker = true := by
  obtain ⟨content', hcontent'⟩ := Option.isSome_iff_exists.mp htext
  cases hcontent : fromUtf8 log with
  | none => simp [logHasMarker, hcontent] at h
  | some content =>
    rw [← asBytes_of_fromUtf8 hcontent, logHasMarker_asBytes, decide_eq_true_eq] at h
    rw [← asBytes_of_fromUtf8 hcontent, ← asBytes_of_fromUtf8 hcontent'] at happended
    obtain ⟨rest, rfl⟩ := asBytes_prefix_iff.mp happended
    rw [← asBytes_of_fromUtf8 hcontent', logHasMarker_asBytes, decide_eq_true_eq]
    obtain ⟨kept, hkept | hkept, happended⟩ := normalize_prefix content rest
    · exact (hkept ▸ h).trans happended.isInfix
    · rw [hkept, List.infix_concat_iff, List.suffix_concat_iff] at h
      obtain (hnil | ⟨front, hfront, -⟩) | h := h
      · exact hnil ▸ List.nil_infix
      · exact absurd (by rw [hfront, List.getLast?_concat]) hend
      · exact h.trans happended.isInfix

def Seen (looks : Nat → Look) (n : Nat) (marker : String) : Prop :=
  ∃ i ≤ n, logHasMarker (looks i).log marker = true

namespace Answers

variable {started n j k gap : Nat} {looks : Nat → Look} {marker command : String}

theorem grows_le (h : Answers sc started looks) {i j : Nat} (hij : i ≤ j) :
    (looks i).log <+: (looks j).log := by
  induction hij with
  | refl => exact List.prefix_rfl
  | step _ ih => exact ih.trans (h.grows _)

theorem keeps (h : Answers sc started looks) (hsettled : Settled sc)
    (hready : sc[k]? = some (marker, command)) (hseen : Seen looks n marker)
    (htext : (fromUtf8 (looks n).log).isSome) : logHasMarker (looks n).log marker = true := by
  obtain ⟨i, hi, hmarker⟩ := hseen
  exact logHasMarker_prefix (h.grows_le hi) htext (hsettled _ (List.mem_of_getElem? hready)) hmarker

theorem returns (h : Answers sc started looks) (hsettled : Settled sc)
    (hready : sc[k]? = some (marker, command)) (hmarker : logHasMarker (looks j).log marker = true)
    (n : Nat) : ∃ gap, logHasMarker (looks (n + gap)).log marker = true := by
  obtain ⟨m, hm, htext⟩ := h.text (max n j)
  refine ⟨m - n, ?_⟩
  rw [Nat.add_sub_cancel' (by omega)]
  exact h.keeps hsettled hready ⟨j, by omega, hmarker⟩ htext

theorem types_now (h : Answers sc started looks) (hat : At sc started looks n d)
    (htyped : d.typed = false) (hready : sc[d.step]? = some (marker, command))
    (hnow : logHasMarker (looks n).log marker = true) :
    ∃ n' d', At sc started looks n' d' ∧ d'.step = d.step ∧ d'.typed = true ∧
      Seen looks n' marker := by
  have hinject : inject sc d (looks n) =
      some (false, { d with typed := true, typedAt := (looks n).now, attempts := 1 },
        some ⟨d.step, command, looks n⟩) := by
    simp [inject, hready, htyped, hnow, sendInput, h.writable n]
  exact ⟨n + 1, _, hat.succ hinject, rfl, rfl, n, Nat.le_succ n, hnow⟩

theorem types (h : Answers sc started looks) (hat : At sc started looks n d)
    (htyped : d.typed = false) (hready : sc[d.step]? = some (marker, command))
    (hmarker : logHasMarker (looks (n + gap)).log marker = true) :
    ∃ n' d', At sc started looks n' d' ∧ d'.step = d.step ∧ d'.typed = true ∧
      Seen looks n' marker := by
  induction gap generalizing n with
  | zero => exact h.types_now hat htyped hready hmarker
  | succ gap ih =>
    by_cases hnow : logHasMarker (looks n).log marker = true
    · exact h.types_now hat htyped hready hnow
    · have hinject : inject sc d (looks n) = some (false, d, none) := by
        simp [inject, hready, hnow]
      exact ih (hat.succ hinject) (by rw [Nat.succ_add_eq_add_succ]; exact hmarker)

theorem waits (h : Answers sc started looks) {next : String × String}
    (hready : sc[d.step]? = some (marker, command)) (htyped : d.typed = true)
    (hnext : sc[d.step + 1]? = some next) (hnot : logHasMarker (looks n).log next.1 = false) :
    ∃ d' o, inject sc d (looks n) = some (false, d', o) ∧ d'.step = d.step ∧ d'.typed = true := by
  by_cases hmarker : logHasMarker (looks n).log marker = true
  · by_cases hagain :
        0 < d.step ∧ d.attempts < maxAttempts ∧ retryGrace ≤ (looks n).now - d.typedAt
    · refine ⟨{ d with typedAt := (looks n).now, attempts := d.attempts + 1 },
        some ⟨d.step, command, looks n⟩, ?_, rfl, htyped⟩
      simp [inject, hready, htyped, hmarker, hnext, hnot, hagain, sendInput, h.writable n]
    · refine ⟨d, none, ?_, rfl, htyped⟩
      rw [inject, hready]
      simp [htyped, hmarker, hnext, hnot, hagain]
  · exact ⟨d, none, by simp [inject, hready, hmarker], rfl, htyped⟩

theorem advances_now (h : Answers sc started looks) (hsettled : Settled sc)
    (hat : At sc started looks n d) (htyped : d.typed = true) {next : String × String}
    (hready : sc[d.step]? = some (marker, command)) (hseen : Seen looks n marker)
    (hnext : sc[d.step + 1]? = some next) (hanswer : logHasMarker (looks n).log next.1 = true) :
    ∃ n' d', At sc started looks n' d' ∧ d'.step = d.step + 1 ∧ d'.typed = false := by
  have hlt := (List.getElem?_eq_some_iff.mp hnext).1
  have hmarker := h.keeps hsettled hready hseen (isSome_of_logHasMarker hanswer)
  have hinject : inject sc d (looks n) =
      some (false, { d with step := d.step + 1, typed := false, attempts := 0 }, none) := by
    simp [inject, hready, htyped, hmarker, hnext, hanswer, not_le.mpr hlt]
  exact ⟨n + 1, _, hat.succ hinject, rfl, rfl⟩

theorem advances (h : Answers sc started looks) (hsettled : Settled sc) {next : String × String}
    (hat : At sc started looks n d) (htyped : d.typed = true)
    (hready : sc[d.step]? = some (marker, command)) (hseen : Seen looks n marker)
    (hnext : sc[d.step + 1]? = some next)
    (hanswer : logHasMarker (looks (n + gap)).log next.1 = true) :
    ∃ n' d', At sc started looks n' d' ∧ d'.step = d.step + 1 ∧ d'.typed = false := by
  induction gap generalizing n d with
  | zero => exact h.advances_now hsettled hat htyped hready hseen hnext hanswer
  | succ gap ih =>
    by_cases hnow : logHasMarker (looks n).log next.1 = true
    · exact h.advances_now hsettled hat htyped hready hseen hnext hnow
    · obtain ⟨d', o, hinject, hstep, htyped'⟩ :=
        h.waits hready htyped hnext (by simpa using hnow)
      rw [← hstep] at hready hnext ⊢
      exact ih (hat.succ hinject) htyped' hready (hseen.imp fun i hi => ⟨by omega, hi.2⟩) hnext
        (by rw [Nat.succ_add_eq_add_succ]; exact hanswer)

theorem reaches (h : Answers sc started looks) (hsettled : Settled sc) {k : Nat}
    (hk : k < sc.length) :
    ∃ n d, At sc started looks n d ∧ d.step = k ∧ d.typed = true ∧ Seen looks n sc[k].1 := by
  induction k with
  | zero =>
    have hat : At sc started looks 0 (Driver.new started) := fun _ _ => rfl
    have hhead : sc.head? = some sc[0] := by
      rw [List.head?_eq_getElem?, List.getElem?_eq_getElem hk]
    obtain ⟨j, hj⟩ := h.boots _ hhead
    obtain ⟨gap, hgap⟩ := h.returns hsettled (List.getElem?_eq_getElem hk) hj 0
    exact h.types hat rfl (List.getElem?_eq_getElem hk) hgap
  | succ k ih =>
    have hk' := Nat.lt_of_succ_lt hk
    obtain ⟨n, d, hat, rfl, htyped, hseen⟩ := ih hk'
    have hnext := List.getElem?_eq_getElem hk
    obtain ⟨j, hj⟩ := h.answers n d hat htyped _ hnext
    obtain ⟨gap, hgap⟩ := h.returns hsettled hnext hj n
    obtain ⟨n', d', hat', hstep, htyped'⟩ := h.advances hsettled hat htyped
      (List.getElem?_eq_getElem hk') hseen hnext hgap
    have hready : sc[d'.step]? = some sc[d.step + 1] :=
      (congrArg (sc[·]?) hstep).trans hnext
    obtain ⟨gap', hgap'⟩ := h.returns hsettled hnext hj n'
    obtain ⟨n'', d'', hat'', hstep', htyped'', hseen'⟩ := h.types hat' htyped' hready hgap'
    exact ⟨n'', d'', hat'', hstep'.trans hstep, htyped'', hseen'⟩

end Answers

/-- A guest that answers gets the whole script, unless the deadline comes first. -/
theorem script_typed {started : Nat} {looks : Nat → Look} (hne : sc ≠ [])
    (hsettled : Settled sc) (h : Answers sc started looks) :
    ∃ n d, At sc started looks n d ∧ d.typed = true ∧ d.step + 1 = sc.length := by
  have hpos := List.length_pos_of_ne_nil hne
  obtain ⟨n, d, hat, hstep, htyped, -⟩ := h.reaches hsettled (Nat.sub_one_lt_of_lt hpos)
  exact ⟨n, d, hat, htyped, by omega⟩

theorem settled_script (arch : Arch) : Settled (script arch) := by
  cases arch <;> simp only [Settled, script] <;> decide +kernel

def lines (n : Nat) : List Char :=
  (x64Script.take n).flatMap fun step => step.1.toList ++ ['\r', '\n']

theorem logHasMarker_lines {k : Nat} {step : String × String} (hstep : x64Script[k]? = some step) :
    logHasMarker (asBytes (lines (k + 1))) step.1 = true := by
  have hlines : ∀ k : Fin x64Script.length,
      x64Script[k].1.toList <:+: normalize (lines (k + 1)) := by decide +kernel
  obtain ⟨hk, rfl⟩ := List.getElem?_eq_some_iff.mp hstep
  rw [logHasMarker_asBytes, decide_eq_true_eq]
  exact hlines ⟨k, hk⟩

/-- A guest that writes one marker between two looks, each on a line of its own. -/
theorem script_typed_x64 : ∃ n d,
    At x64Script 0 (fun i => ⟨asBytes (lines i), 50 * i, true⟩) n d ∧ d.typed = true ∧
      d.step + 1 = 13 := by
  have hgrows (i : Nat) : asBytes (lines i) <+: asBytes (lines (i + 1)) := by
    rw [lines, lines, List.take_add_one, List.flatMap_append, asBytes_append]
    exact List.prefix_append _ _
  refine script_typed (by decide) (settled_script .x64) ⟨fun _ => rfl, hgrows, fun i => ?_,
    fun step h => ⟨1, ?_⟩, fun n d _ _ next h => ⟨d.step + 2, logHasMarker_lines h⟩⟩
  · exact ⟨i, Nat.le_refl i, by rw [fromUtf8_asBytes]; rfl⟩
  · exact logHasMarker_lines (by rw [← List.head?_eq_getElem?]; exact h)

theorem script_subset (arch : Arch) : ∀ step ∈ script arch, step.1 ∈ smokeMarkers arch := by
  cases arch <;> decide +kernel

theorem logHasMarker_iff {log : List UInt8} {marker : String} (h : marker.toList ≠ []) :
    logHasMarker log marker ↔ marker.toList <:+: serialText log := by
  rw [logHasMarker, serialText]
  cases fromUtf8 log with
  | none => simpa [normalize] using h
  | some content => simp

theorem passes_iff (code expected : Int) (log : List UInt8) (arch : Arch) :
    (assertSmoke code expected log arch = .ok () ↔
      code = expected ∧ ∀ marker ∈ smokeMarkers arch, logHasMarker log marker) ∧
      (assertSmoke code expected log arch = .ok () →
        ∀ step ∈ script arch, logHasMarker log step.1) := by
  have hiff : assertSmoke code expected log arch = .ok () ↔
      code = expected ∧ ∀ marker ∈ smokeMarkers arch, logHasMarker log marker := by
    have hne : ∀ marker ∈ smokeMarkers arch, marker.toList ≠ [] := by
      cases arch <;> decide +kernel
    have hall : (∀ marker ∈ smokeMarkers arch, logHasMarker log marker) ↔
        ∀ marker ∈ smokeMarkers arch, marker.toList <:+: serialText log :=
      forall₂_congr fun marker hmarker => logHasMarker_iff (hne marker hmarker)
    rw [hall, assertSmoke]
    split
    · next marker hfind =>
      have hlacks := List.find?_some hfind
      refine iff_of_false (by simp) fun h => ?_
      exact absurd (h.2 marker (List.mem_of_find?_eq_some hfind)) (by simpa using hlacks)
    · next hfind =>
      have hfound : ∀ marker ∈ smokeMarkers arch, marker.toList <:+: serialText log :=
        fun marker hmarker => by simpa using List.find?_eq_none.mp hfind marker hmarker
      split
      · next hcode => exact iff_of_false (by simp) fun h => hcode h.1
      · next hcode => exact iff_of_true rfl ⟨not_not.mp hcode, hfound⟩
  exact ⟨hiff, fun h step hstep => (hiff.mp h).2 _ (script_subset arch step hstep)⟩

end FerricK.Smoke
