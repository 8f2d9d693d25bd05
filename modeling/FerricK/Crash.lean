import FerricK.Irq.Guard
import Mathlib.Logic.Function.Basic

/-! The dump paths for exceptions and panics.  They run over the locks as the interrupted code left
them, which never runs again: to wait for one that is held is to wait for ever. -/

namespace FerricK.Crash

inductive Lock
  | console
  | framebuffer
  | serial
  deriving DecidableEq

/-- `serialInit` and `framebufferInit` say whether `get` finds the two cells set, `noGeometry` that
the console has no columns or no rows; `sent` is what has reached the serial port. -/
structure Kernel where
  held : Lock → Bool
  serialInit : Bool
  framebufferInit : Bool
  uartVbase : Nat
  noGeometry : Bool
  sent : List UInt8

def utf8 (s : List Char) : List UInt8 := s.flatMap String.utf8EncodeChar

def expandLfToCrlf (s : List Char) : List UInt8 :=
  (utf8 s).flatMap fun byte => if byte = 10 then [13, byte] else [byte]

namespace Kernel

def setHeld (k : Kernel) (l : Lock) (b : Bool) : Kernel :=
  { k with held := Function.update k.held l b }

def lock (k : Kernel) (l : Lock) : Except Lock Kernel :=
  if k.held l then .error l else .ok (k.setHeld l true)

def tryLock (k : Kernel) (l : Lock) : Option Kernel :=
  if k.held l then none else some (k.setHeld l true)

def unlock (k : Kernel) (l : Lock) : Kernel := k.setHeld l false

def send (k : Kernel) (s : List Char) : Kernel := { k with sent := k.sent ++ expandLfToCrlf s }

end Kernel

namespace Serial

def withSerialTry (s : List Char) (k : Kernel) : Bool × Kernel :=
  if k.serialInit then
    match k.tryLock .serial with
    | none => (false, k)
    | some k => (true, (k.send s).unlock .serial)
  else (false, k)

def writeEmergency (s : List Char) (k : Kernel) : Kernel := k.send s

end Serial

namespace Pl011

def withSerial (s : List Char) (k : Kernel) : Except Lock Kernel :=
  if k.serialInit then (k.lock .serial).map fun k => (k.send s).unlock .serial else .ok k

def writeEmergency (s : List Char) (k : Kernel) : Kernel :=
  if k.uartVbase = 0 then k else k.send s

end Pl011

def serialWrite (s : List Char) (k : Kernel) : Arch → Except Lock Kernel
  | .x86_64 =>
    let (taken, k) := Serial.withSerialTry s k
    .ok (if taken then k else Serial.writeEmergency s k)
  | .aarch64 => Pl011.withSerial s k

/-- `BufWriter::write_str`: a piece that does not fit is dropped. -/
def bufWriterWriteStr (cap : Nat) (buf s : List Char) : List Char :=
  if (utf8 buf).length + (utf8 s).length ≤ cap then buf ++ s else buf

def exceptionHead : Arch → List Char
  | .x86_64 => "EXCEPTION: vector ".toList
  | .aarch64 => "EXCEPTION: kind ".toList

def formatException (arch : Arch) (pieces : List (List Char)) : List Char :=
  (exceptionHead arch :: pieces).foldl (bufWriterWriteStr 1024) []

/-- What `exception_common` writes, one call of `serial_write` each.  On x86_64 `rows` are the
header and the rows of the stack. -/
def exceptionTexts (pieces rows : List (List Char)) : Arch → List (List Char)
  | .x86_64 => formatException .x86_64 pieces :: rows
  | .aarch64 => [formatException .aarch64 pieces]

def exceptionCommon (arch : Arch) (pieces rows : List (List Char)) (k : Kernel) :
    Except Lock Kernel :=
  (exceptionTexts pieces rows arch).foldlM (fun k s => serialWrite s k arch) k

def emergencyWrite (arch : Arch) (k : Kernel) (s : List Char) : Kernel :=
  match arch with
  | .x86_64 => Serial.writeEmergency s k
  | .aarch64 => Pl011.writeEmergency s k

/-- `with_framebuffer_try`, where `f` is what it runs; the surface is not part of the state. -/
def withFramebufferTry (f : Kernel → Kernel) (k : Kernel) : Kernel :=
  if k.framebufferInit then
    match k.tryLock .framebuffer with
    | none => k
    | some k => (f k).unlock .framebuffer
  else k

def renderTry (k : Kernel) : Kernel :=
  match k.tryLock .console with
  | none => k
  | some k => k.unlock .console

def paintPanic (k : Kernel) : Kernel :=
  match k.tryLock .console with
  | none => k
  | some k =>
    let k := if k.noGeometry then withFramebufferTry id k else k
    withFramebufferTry renderTry (k.unlock .console)

def panicTexts (lines : List (List Char)) : List (List Char) :=
  lines.flatMap fun line => [line, ['\n']]

def renderPanic (arch : Arch) (lines : List (List Char)) (k : Kernel) : Kernel :=
  paintPanic ((panicTexts lines).foldl (emergencyWrite arch) k)

inductive Cause
  | exception (pieces rows : List (List Char))
  | panic (message : List Char)

def texts (arch : Arch) : Cause → List (List Char)
  | .exception pieces rows => exceptionTexts pieces rows arch
  | .panic message => panicTexts [message]

def dump (arch : Arch) (k : Kernel) : Cause → Except Lock Kernel
  | .exception pieces rows => exceptionCommon arch pieces rows k
  | .panic message => .ok (renderPanic arch [message] k)

def Dumped (arch : Arch) (k : Kernel) (cause : Cause) : Prop :=
  ∃ k', dump arch k cause = .ok k' ∧
    k'.sent = k.sent ++ (texts arch cause).flatMap expandLfToCrlf

variable {arch : Arch} {k : Kernel} {s : List Char} {l : List (List Char)}

theorem setHeld_setHeld (h : k.held .serial = false) :
    ((k.setHeld .serial true).send s).setHeld .serial false = k.send s := by
  have hheld : Function.update k.held .serial false = k.held := h ▸ Function.update_eq_self _ _
  simp [Kernel.setHeld, Kernel.send, hheld]

theorem sent_foldl_send (k : Kernel) (l : List (List Char)) :
    (l.foldl Kernel.send k).sent = k.sent ++ l.flatMap expandLfToCrlf := by
  induction l generalizing k with
  | nil => simp
  | cons s l ih => simp [ih, Kernel.send]

@[simp] theorem sent_setHeld (k : Kernel) (l : Lock) (b : Bool) : (k.setHeld l b).sent = k.sent :=
  rfl

theorem tryLock_eq_some {lock : Lock} {k' : Kernel} :
    k.tryLock lock = some k' ↔ k.held lock = false ∧ k' = k.setHeld lock true := by
  unfold Kernel.tryLock
  cases k.held lock with
  | true => simp
  | false => simp [eq_comm]

theorem sent_withFramebufferTry {f : Kernel → Kernel} (hf : ∀ k, (f k).sent = k.sent)
    (k : Kernel) : (withFramebufferTry f k).sent = k.sent := by
  unfold withFramebufferTry
  split
  · cases h : k.tryLock .framebuffer with
    | none => rfl
    | some k' =>
      obtain ⟨-, rfl⟩ := tryLock_eq_some.mp h
      exact hf _
  · rfl

theorem sent_renderTry (k : Kernel) : (renderTry k).sent = k.sent := by
  unfold renderTry
  cases h : k.tryLock .console with
  | none => rfl
  | some k' =>
    obtain ⟨-, rfl⟩ := tryLock_eq_some.mp h
    rfl

theorem sent_paintPanic (k : Kernel) : (paintPanic k).sent = k.sent := by
  unfold paintPanic
  cases h : k.tryLock .console with
  | none => rfl
  | some k' =>
    obtain ⟨-, rfl⟩ := tryLock_eq_some.mp h
    refine (sent_withFramebufferTry sent_renderTry _).trans ?_
    rw [Kernel.unlock, sent_setHeld]
    split
    · exact sent_withFramebufferTry (fun _ => rfl) _
    · rfl

theorem serialWrite_x86_64 (s : List Char) (k : Kernel) :
    serialWrite s k .x86_64 = .ok (k.send s) := by
  by_cases hinit : k.serialInit
  · cases hheld : k.held .serial with
    | true => simp [serialWrite, Serial.withSerialTry, Serial.writeEmergency, Kernel.tryLock, hinit,
        hheld]
    | false =>
      simp [serialWrite, Serial.withSerialTry, Kernel.tryLock, Kernel.unlock, hinit, hheld,
        setHeld_setHeld hheld]
  · simp [serialWrite, Serial.withSerialTry, Serial.writeEmergency, hinit]

theorem exceptionCommon_x86_64 (pieces rows : List (List Char)) (k : Kernel) :
    exceptionCommon .x86_64 pieces rows k =
      .ok ((exceptionTexts pieces rows .x86_64).foldl Kernel.send k) := by
  simp only [exceptionCommon, serialWrite_x86_64]
  exact List.foldlM_pure

theorem exceptionCommon_aarch64 (pieces rows : List (List Char)) (k : Kernel) :
    exceptionCommon .aarch64 pieces rows k =
      if k.serialInit then
        if k.held .serial then .error .serial else .ok (k.send (formatException .aarch64 pieces))
      else .ok k := by
  have hone : exceptionCommon .aarch64 pieces rows k =
      Pl011.withSerial (formatException .aarch64 pieces) k := by
    simp [exceptionCommon, exceptionTexts, serialWrite]
  rw [hone, Pl011.withSerial]
  by_cases hinit : k.serialInit
  · cases hheld : k.held .serial with
    | true => simp [hinit, hheld, Kernel.lock, Except.map]
    | false => simp [hinit, hheld, Kernel.lock, Kernel.unlock, Except.map, setHeld_setHeld hheld]
  · simp [hinit]

theorem sent_renderPanic (arch : Arch) (lines : List (List Char)) (k : Kernel) :
    (renderPanic arch lines k).sent = ((panicTexts lines).foldl (emergencyWrite arch) k).sent :=
  sent_paintPanic _

theorem emergencyWrite_aarch64_up (h : k.uartVbase ≠ 0) (l : List (List Char)) :
    l.foldl (emergencyWrite .aarch64) k = l.foldl Kernel.send k := by
  induction l generalizing k with
  | nil => rfl
  | cons s l ih =>
    have hone : emergencyWrite .aarch64 k s = k.send s := if_neg h
    rw [List.foldl_cons, List.foldl_cons, hone]
    exact ih h

theorem emergencyWrite_aarch64_down (h : k.uartVbase = 0) (l : List (List Char)) :
    l.foldl (emergencyWrite .aarch64) k = k := by
  induction l with
  | nil => rfl
  | cons s l ih =>
    have hone : emergencyWrite .aarch64 k s = k := if_pos h
    rw [List.foldl_cons, hone, ih]

theorem expandLfToCrlf_ne_nil (h : s ≠ []) : expandLfToCrlf s ≠ [] := by
  obtain ⟨c, s, rfl⟩ := List.exists_cons_of_ne_nil h
  obtain ⟨byte, bytes, hbytes⟩ := List.exists_cons_of_ne_nil (String.utf8EncodeChar_ne_nil (c := c))
  rw [expandLfToCrlf, utf8, List.flatMap_cons, hbytes, List.cons_append, List.flatMap_cons]
  split <;> simp

theorem bufWriterWriteStr_ne_nil {cap : Nat} {buf : List Char} (h : buf ≠ []) (s : List Char) :
    bufWriterWriteStr cap buf s ≠ [] := by
  unfold bufWriterWriteStr
  split
  · simp [h]
  · exact h

theorem formatException_ne_nil (arch : Arch) (pieces : List (List Char)) :
    formatException arch pieces ≠ [] := by
  have hhead : bufWriterWriteStr 1024 [] (exceptionHead arch) ≠ [] := by
    cases arch <;> decide
  rw [formatException, List.foldl_cons]
  generalize bufWriterWriteStr 1024 [] (exceptionHead arch) = buf at hhead
  induction pieces generalizing buf with
  | nil => exact hhead
  | cons s pieces ih => exact ih _ (bufWriterWriteStr_ne_nil hhead s)

/-- The port can be had without waiting: on x86_64 always, on aarch64 by an exception if the
PL011 is up and its lock free, by a panic if its base is known. -/
def PortFree (arch : Arch) (k : Kernel) : Cause → Prop
  | .exception _ _ => arch = .x86_64 ∨ k.serialInit = true ∧ k.held .serial = false
  | .panic _ => arch = .x86_64 ∨ k.uartVbase ≠ 0

theorem not_dumped_of_sent {cause : Cause} {k' : Kernel} (hdump : dump arch k cause = .ok k')
    (hsent : k'.sent = k.sent) (htext : s ∈ texts arch cause) (hs : s ≠ []) :
    ¬ Dumped arch k cause := by
  rintro ⟨k'', hk'', hsent'⟩
  cases hdump.symm.trans hk''
  rw [hsent, List.self_eq_append_right, List.flatMap_eq_nil_iff] at hsent'
  exact expandLfToCrlf_ne_nil hs (hsent' s htext)

theorem exception_aarch64_iff (k : Kernel) (pieces rows : List (List Char)) :
    Dumped .aarch64 k (.exception pieces rows) ↔
      k.serialInit = true ∧ k.held .serial = false := by
  have hdump := exceptionCommon_aarch64 pieces rows k
  cases hinit : k.serialInit with
  | false =>
    rw [if_neg (by simp [hinit])] at hdump
    exact iff_of_false (not_dumped_of_sent hdump rfl (List.mem_singleton_self _)
      (formatException_ne_nil .aarch64 pieces)) (by simp)
  | true =>
    rw [if_pos hinit] at hdump
    cases hheld : k.held .serial with
    | true =>
      rw [if_pos hheld] at hdump
      refine iff_of_false ?_ (by simp)
      rintro ⟨k', hk', -⟩
      cases hdump.symm.trans hk'
    | false =>
      rw [if_neg (by simp [hheld])] at hdump
      exact iff_of_true ⟨_, hdump, by simp [texts, exceptionTexts, Kernel.send]⟩ ⟨rfl, rfl⟩

theorem dumped_panic (h : (panicTexts [s]).foldl (emergencyWrite arch) k =
    (panicTexts [s]).foldl Kernel.send k) : Dumped arch k (.panic s) :=
  ⟨_, rfl, by rw [sent_renderPanic, h, sent_foldl_send]; rfl⟩

theorem panic_aarch64_iff (k : Kernel) (message : List Char) :
    Dumped .aarch64 k (.panic message) ↔ k.uartVbase ≠ 0 := by
  by_cases hbase : k.uartVbase = 0
  · refine iff_of_false ?_ (not_not.mpr hbase)
    refine not_dumped_of_sent (s := ['\n']) rfl ?_ (by simp [texts, panicTexts]) (by simp)
    rw [sent_renderPanic, emergencyWrite_aarch64_down hbase]
  · exact iff_of_true (dumped_panic (emergencyWrite_aarch64_up hbase _)) hbase

/-- On aarch64 `serial_write` locks the port, where `write_emergency` would do. -/
theorem dumped_iff (arch : Arch) (k : Kernel) (cause : Cause) :
    Dumped arch k cause ↔ PortFree arch k cause := by
  cases arch with
  | x86_64 =>
    cases cause with
    | exception pieces rows =>
      refine iff_of_true ⟨_, exceptionCommon_x86_64 pieces rows k, ?_⟩ (.inl rfl)
      exact sent_foldl_send k _
    | panic message => exact iff_of_true (dumped_panic rfl) (.inl rfl)
  | aarch64 =>
    cases cause with
    | exception pieces rows =>
      rw [exception_aarch64_iff, PortFree]
      exact (or_iff_right (by decide)).symm
    | panic message =>
      rw [panic_aarch64_iff, PortFree]
      exact (or_iff_right (by decide)).symm

def insidePrint : Kernel where
  held l := l = .serial
  serialInit := true
  framebufferInit := true
  uartVbase := 0xFFFF800009000000
  noGeometry := false
  sent := []

theorem fault_inside_print_waits : dump .aarch64 insidePrint (.exception [] []) = .error .serial ∧
    ¬ Dumped .aarch64 insidePrint (.exception [] []) := by
  have hdump : dump .aarch64 insidePrint (.exception [] []) = .error .serial := rfl
  refine ⟨hdump, ?_⟩
  rintro ⟨k', hk', -⟩
  cases hdump.symm.trans hk'

end FerricK.Crash
