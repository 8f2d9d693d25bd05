import FerricK.Crash
import FerricK.Lib.Transmitter
import FerricK.Sync.Holder

/-! Text on the serial ports: threads take the lock for each text they write, the chip sends at its
own pace, and a handler that never returns may break in at any moment. -/

universe u

namespace FerricK

namespace Serial

def lsrTransmitEmpty : UInt8 := (1 : UInt8) <<< 5

/-- The line status tells whether the queue, of 16, is empty. `send` waits until it is. -/
def transmitter : Transmitter UInt8 UInt8 where
  room queue := queue.length < 16
  shows queue lsr := lsr &&& lsrTransmitEmpty ≠ 0 ↔ queue = []
  ready lsr := !(lsr &&& lsrTransmitEmpty == 0)
  room_of_ready hshows hready := by
    have hnil := hshows.mp (by simpa using hready)
    simp [hnil]
  room_of_cons h := Nat.lt_of_succ_lt h
  exists_ready := ⟨lsrTransmitEmpty, by decide, by decide⟩

end Serial

namespace Pl011Uart

def frTxff : UInt32 := (1 : UInt32) <<< 5

/-- The flag tells whether the queue, of 16, is full. `send` waits while it is. -/
def transmitter : Transmitter UInt8 UInt32 where
  room queue := queue.length < 16
  shows queue fr := fr &&& frTxff ≠ 0 ↔ 16 ≤ queue.length
  ready fr := !(fr &&& frTxff != 0)
  room_of_ready hshows hready :=
    Nat.lt_of_not_le fun hfull => absurd (hshows.mpr hfull) (by simpa using hready)
  room_of_cons h := Nat.lt_of_succ_lt h
  exists_ready := ⟨0, by decide, by decide⟩

end Pl011Uart

namespace Uart

open Crash (expandLfToCrlf)
open System (Turns)

def Status : Arch → Type
  | .x86_64 => UInt8
  | .aarch64 => UInt32

def transmitter : (arch : Arch) → Transmitter UInt8 (Status arch)
  | .x86_64 => Serial.transmitter
  | .aarch64 => Pl011Uart.transmitter

inductive Handler
  | panic
  | exception

/-- Who waits for the lock.  A panic writes past it with `write_emergency`, and so does an exception
on x86-64 that finds it held. -/
def Handler.waits : Arch → Handler → Bool
  | .aarch64, .exception => true
  | _, _ => false

structure Dump where
  handler : Handler
  texts : List (List Char)
  sender : Sender UInt8

/-- `text` is the text of the call each thread is in, `taken` the texts whose calls have had the
lock, the first one first. A crash has texts of its own. -/
structure Lines (ι : Type u) where
  lock : Spinlock ι Unit
  wire : Wire UInt8
  text : ι → Option (List Char)
  sender : ι → Sender UInt8
  taken : List (List Char)
  crash : Option Dump

inductive Actor (ι : Type u)
  | thread (t : ι)
  | chip
  | handler

namespace Lines

variable {ι : Type u} {arch : Arch}

def bytes (texts : List (List Char)) : List UInt8 := texts.flatMap expandLfToCrlf

structure Writing (s : Lines ι) (t : ι) (text : List Char) : Prop where
  text : s.text t = some text
  spinning : s.lock.spinning t = false

section

variable [DecidableEq ι]

/-- `with_serial(|serial| serial.write_str(text))` on threads, until the processor is in a handler
that does not return.  From then on the lock is as the handler has found it. -/
inductive Step (arch : Arch) (s : Lines ι) : Actor ι → Lines ι → Prop
  | call {t : ι} {lock : Spinlock ι Unit} (text : List Char) : s.crash = none →
      s.text t = none → s.lock.step t .lock = some lock →
      Step arch s (.thread t) { s with
        lock := lock
        text := Function.update s.text t (some text) }
  | wait {t : ι} {spurious : Bool} {lock : Spinlock ι Unit} : s.crash = none →
      s.lock.step t (.spin spurious) = some lock → lock.spinning t = true →
      Step arch s (.thread t) { s with lock := lock }
  | take {t : ι} {text : List Char} {spurious : Bool} {lock : Spinlock ι Unit} : s.crash = none →
      s.text t = some text → s.lock.step t (.spin spurious) = some lock →
      lock.spinning t = false →
      Step arch s (.thread t) { s with
        lock := lock
        sender := Function.update s.sender t ⟨expandLfToCrlf text, false⟩
        taken := s.taken ++ [text] }
  | send {t : ι} {text : List Char} {sender : Sender UInt8} {wire : Wire UInt8} :
      s.crash = none → s.Writing t text →
      (transmitter arch).Send (s.sender t) s.wire sender wire →
      Step arch s (.thread t) { s with
        wire := wire
        sender := Function.update s.sender t sender }
  | drop {t : ι} {text : List Char} {k : Nat} {lock : Spinlock ι Unit} : s.crash = none →
      s.Writing t text → (s.sender t).pending = [] → s.lock.step t (.drop k) = some lock →
      Step arch s (.thread t) { s with lock := lock, text := Function.update s.text t none }
  | shift {wire : Wire UInt8} : Transmitter.Shift s.wire wire →
      Step arch s .chip { s with wire := wire }
  | crash (handler : Handler) (texts : List (List Char)) : s.crash = none →
      Step arch s .handler { s with crash := some ⟨handler, texts, ⟨bytes texts, false⟩⟩ }
  | emergency {d : Dump} {sender : Sender UInt8} {wire : Wire UInt8} : s.crash = some d →
      (d.handler.waits arch = true → s.lock.locked = false) →
      (transmitter arch).Send d.sender s.wire sender wire →
      Step arch s .handler { s with wire := wire, crash := some { d with sender := sender } }

def system (arch : Arch) : System (Lines ι) where
  init s := s.lock = Spinlock.new () ∧ s.wire = ⟨[], []⟩ ∧ s.text = (fun _ => none) ∧
    s.taken = [] ∧ s.crash = none
  step s s' := ∃ a, Step arch s a s'

end

inductive Phase (s : Lines ι) (t : ι) : Prop
  | idle (htext : s.text t = none) (hspin : s.lock.spinning t = false)
      (hheld : ¬ s.lock.HeldBy t)
  | waiting {text : List Char} (htext : s.text t = some text)
      (hspin : s.lock.spinning t = true) (hheld : ¬ s.lock.HeldBy t)
  | writing {text : List Char} (hwriting : s.Writing t text) (hheld : s.lock.HeldBy t)

def report (s : Lines ι) : List UInt8 := bytes (s.crash.elim [] Dump.texts)
def unreported (s : Lines ι) : List UInt8 := s.crash.elim [] fun d => d.sender.pending

inductive Rest (s : Lines ι) : List UInt8 → Prop
  | free (hlocked : s.lock.locked = false) : Rest s []
  | held {t : ι} {past : List (List Char)} {text : List Char} {rest : List UInt8}
      (hheld : s.lock.HeldBy t) (hwriting : s.Writing t text) (htaken : s.taken = past ++ [text])
      (hrest : (s.sender t).pending = rest) (hsuffix : rest <:+ expandLfToCrlf text) : Rest s rest

structure Told (s : Lines ι) (written rest : List UInt8) : Prop where
  taken : written ++ rest = bytes s.taken
  wire : s.wire.accepted ++ s.unreported = written ++ s.report
  suffix : s.unreported <:+ s.report

structure Inv (arch : Arch) (s : Lines ι) : Prop where
  lock : Spinlock.Inv () s.lock
  phase : ∀ t, s.Phase t
  ready : s.crash = none → ∀ t, s.lock.HeldBy t → (transmitter arch).Ready (s.sender t) s.wire
  crashReady : ∀ d, s.crash = some d → (transmitter arch).Ready d.sender s.wire
  blocked : ∀ d, s.crash = some d → d.handler.waits arch = true → s.lock.locked = true →
    d.sender.pending = bytes d.texts
  told : ∃ written rest, s.Rest rest ∧ s.Told written rest

variable {s s' : Lines ι} {t u : ι} {a : Actor ι} {text : List Char} {written rest : List UInt8}
  {lock' : Spinlock ι Unit} {spurious : Bool}

theorem Phase.congr (h : s.Phase u) (htext : s'.text u = s.text u)
    (hspin : s'.lock.spinning u = s.lock.spinning u)
    (hheld : s'.lock.HeldBy u ↔ s.lock.HeldBy u) : s'.Phase u := by
  cases h with
  | idle ht hs hnot => exact .idle (htext.trans ht) (hspin.trans hs) fun h => hnot (hheld.mp h)
  | waiting ht hs hnot =>
    exact .waiting (htext.trans ht) (hspin.trans hs) fun h => hnot (hheld.mp h)
  | writing hwriting h =>
    exact .writing ⟨htext.trans hwriting.text, hspin.trans hwriting.spinning⟩ (hheld.mpr h)

theorem Phase.heldBy (h : s.Phase t) (hwriting : s.Writing t text) : s.lock.HeldBy t := by
  cases h with
  | idle htext => exact absurd (htext.symm.trans hwriting.text) (by simp)
  | waiting _ hspin => exact absurd (hspin.symm.trans hwriting.spinning) (by simp)
  | writing _ hheld => exact hheld

theorem Phase.not_heldBy (h : s.Phase t) (htext : s.text t = none) : ¬ s.lock.HeldBy t := by
  cases h with
  | idle _ _ hheld | waiting _ _ hheld => exact hheld
  | writing hwriting _ => exact absurd (htext.symm.trans hwriting.text) (by simp)

theorem Phase.text_eq (h : s.Phase t) (hheld : ¬ s.lock.HeldBy t) :
    s.text t = if s.lock.spinning t then s.text t else none := by
  cases h with
  | idle htext hspin => rw [hspin, htext, if_neg Bool.false_ne_true]
  | waiting _ hspin => rw [hspin, if_pos rfl]
  | writing _ h => exact absurd h hheld

theorem Rest.congr (h : s.Rest rest) (hlock : s'.lock = s.lock) (htext : s'.text = s.text)
    (hsender : s'.sender = s.sender) (htaken : s'.taken = s.taken) : s'.Rest rest := by
  cases h with
  | free hlocked => exact .free ((congrArg _ hlock).trans hlocked)
  | @held t past text _ hheld hwriting htaken' hrest hsuffix =>
    refine .held (hlock ▸ hheld) ⟨?_, ?_⟩ (htaken.trans htaken') (hsender ▸ hrest) hsuffix
    · rw [htext]
      exact hwriting.text
    · rw [hlock]
      exact hwriting.spinning

theorem Rest.eq_nil (h : s.Rest rest) (hfree : ∀ t, ¬ s.lock.HeldBy t) : rest = [] := by
  cases h with
  | free => rfl
  | held hheld => exact absurd hheld (hfree _)

theorem Told.up (h : s.Told written rest) (hup : s.crash = none) : written = s.wire.accepted := by
  have hwire := h.wire
  simp only [unreported, report, bytes, hup, Option.elim_none, List.flatMap_nil,
    List.append_nil] at hwire
  exact hwire.symm

theorem Told.of_up (hup : s.crash = none) (h : s.wire.accepted ++ rest = bytes s.taken) :
    s.Told s.wire.accepted rest where
  taken := h
  wire := by simp [unreported, report, bytes, hup]
  suffix := by simp [unreported, hup]

theorem Inv.not_heldBy (inv : Inv arch s) (hlocked : s.lock.locked = false) (t : ι) :
    ¬ s.lock.HeldBy t := fun h =>
  absurd ((inv.lock.heldBy_iff.mp ⟨t, h⟩).symm.trans hlocked) (by simp)

section

variable [DecidableEq ι]

theorem spin_wait (h : s.lock.step t (.spin spurious) = some lock')
    (hspin : lock'.spinning t = true) : lock' = s.lock := by
  obtain ⟨-, rfl | ⟨-, rfl⟩⟩ := Spinlock.step_spin h
  · rfl
  · exact absurd (hspin.symm.trans (Function.update_self _ _ _)) (by simp)

theorem spin_take (h : s.lock.step t (.spin spurious) = some lock')
    (hspin : lock'.spinning t = false) : s.lock.locked = false ∧ lock' = { s.lock with
      locked := true
      spinning := Function.update s.lock.spinning t false }.handOut t := by
  obtain ⟨hwait, rfl | htake⟩ := Spinlock.step_spin h
  · exact absurd (hwait.symm.trans hspin) (by simp)
  · exact htake

theorem Step.lock (h : Step arch s a s') (inv : Inv arch s) : Spinlock.Inv () s'.lock := by
  cases h with
  | call _ _ _ hlock => exact inv.lock.step hlock
  | wait _ hlock => exact inv.lock.step hlock
  | take _ _ hlock => exact inv.lock.step hlock
  | drop _ _ _ hlock => exact inv.lock.step hlock
  | send | shift | crash | emergency => exact inv.lock

theorem Step.phase (h : Step arch s a s') (inv : Inv arch s) (u : ι) : s'.Phase u := by
  have hphase := inv.phase u
  cases h with
  | @call t _ text _ htext hlock =>
    obtain ⟨-, rfl⟩ := Spinlock.step_lock hlock
    rcases eq_or_ne u t with rfl | hu
    · exact .waiting (Function.update_self _ _ _) (Function.update_self _ _ _)
        (hphase.not_heldBy htext)
    · exact hphase.congr (Function.update_of_ne hu _ _) (Function.update_of_ne hu _ _) Iff.rfl
  | wait _ hlock hspin =>
    obtain rfl := spin_wait hlock hspin
    exact hphase
  | @take t _ _ _ _ htext hlock hspin =>
    obtain ⟨-, rfl⟩ := spin_take hlock hspin
    rcases eq_or_ne u t with rfl | hu
    · exact .writing ⟨htext, hspin⟩ (Spinlock.heldBy_handOut.mpr (Or.inr rfl))
    · exact hphase.congr rfl (Function.update_of_ne hu _ _)
        (Spinlock.heldBy_handOut.trans (or_iff_left hu))
  | @drop t _ _ _ _ hwriting _ hlock =>
    obtain ⟨hnone, hspin, -⟩ := inv.lock.not_heldBy_drop (u := u) hlock
    rcases eq_or_ne u t with rfl | hu
    · exact .idle (Function.update_self _ _ _) ((congrFun hspin u).trans hwriting.spinning) hnone
    · have hnot : ¬ s.lock.HeldBy u := fun hheld =>
        hu (inv.lock.heldBy_unique hheld ((inv.phase t).heldBy hwriting))
      exact hphase.congr (Function.update_of_ne hu _ _) (congrFun hspin u)
        (iff_of_false hnone hnot)
  | send | shift | crash | emergency => exact hphase.congr rfl rfl Iff.rfl

theorem Step.ready (h : Step arch s a s') (inv : Inv arch s) (hup : s'.crash = none) (u : ι)
    (hu : s'.lock.HeldBy u) : (transmitter arch).Ready (s'.sender u) s'.wire := by
  cases h with
  | call _ hcrash _ hlock =>
    obtain ⟨-, rfl⟩ := Spinlock.step_lock hlock
    exact inv.ready hcrash u hu
  | wait hcrash hlock hspin =>
    obtain rfl := spin_wait hlock hspin
    exact inv.ready hcrash u hu
  | @take t text _ _ _ htext hlock hspin =>
    obtain ⟨hlocked, rfl⟩ := spin_take hlock hspin
    obtain rfl : u = t := (Spinlock.heldBy_handOut.mp hu).resolve_left (inv.not_heldBy hlocked u)
    simp only [Function.update_self]
    exact fun hpolled => nomatch hpolled
  | @send t _ sender _ _ hwriting hsend =>
    obtain rfl := inv.lock.heldBy_unique hu ((inv.phase t).heldBy hwriting)
    simp only [Function.update_self]
    exact hsend.ready
  | drop _ _ _ hlock => exact absurd hu (inv.lock.not_heldBy_drop hlock).1
  | shift hshift => exact hshift.ready (inv.ready hup u hu)
  | crash => cases hup
  | emergency => cases hup

theorem Step.crashReady (h : Step arch s a s') (inv : Inv arch s) {d : Dump}
    (hdown : s'.crash = some d) : (transmitter arch).Ready d.sender s'.wire := by
  cases h with
  | call _ hup | wait hup | take hup | send hup | drop hup =>
    exact absurd (hdown.symm.trans hup) (by simp)
  | shift hshift => exact hshift.ready (inv.crashReady d hdown)
  | crash =>
    cases hdown
    exact fun hpolled => nomatch hpolled
  | emergency _ _ hsend =>
    cases hdown
    exact hsend.ready

/-- A handler that waits for the lock has written nothing. -/
theorem Step.blocked (h : Step arch s a s') (inv : Inv arch s) {d : Dump}
    (hdown : s'.crash = some d) (hwaits : d.handler.waits arch = true)
    (hlocked : s'.lock.locked = true) : d.sender.pending = bytes d.texts := by
  cases h with
  | call _ hup | wait hup | take hup | send hup | drop hup =>
    exact absurd (hdown.symm.trans hup) (by simp)
  | shift => exact inv.blocked d hdown hwaits hlocked
  | crash =>
    cases hdown
    rfl
  | emergency _ hfree =>
    cases hdown
    exact absurd (hlocked.symm.trans (hfree hwaits)) (by simp)

theorem Step.told (h : Step arch s a s') (inv : Inv arch s) :
    ∃ written rest, s'.Rest rest ∧ s'.Told written rest := by
  obtain ⟨written, rest, hrest, htold⟩ := inv.told
  cases h with
  | @call t lock text hup htext hlock =>
    obtain ⟨-, rfl⟩ := Spinlock.step_lock hlock
    refine ⟨written, rest, ?_, htold.taken, htold.wire, htold.suffix⟩
    cases hrest with
    | free hlocked => exact .free hlocked
    | @held u past text _ hheld hwriting htaken hrest hsuffix =>
      have hne : u ≠ t := by
        rintro rfl
        exact absurd (htext.symm.trans hwriting.text) (by simp)
      exact .held hheld ⟨(Function.update_of_ne hne _ _).trans hwriting.text,
        (Function.update_of_ne hne _ _).trans hwriting.spinning⟩ htaken hrest hsuffix
  | wait _ hlock hspin =>
    obtain rfl := spin_wait hlock hspin
    exact ⟨written, rest, hrest, htold⟩
  | @take t text _ _ hup htext hlock hspin =>
    obtain ⟨hlocked, rfl⟩ := spin_take hlock hspin
    obtain rfl := htold.up hup
    obtain rfl := hrest.eq_nil (inv.not_heldBy hlocked)
    have htaken := htold.taken
    rw [List.append_nil] at htaken
    refine ⟨s.wire.accepted, expandLfToCrlf text, ?_, .of_up hup ?_⟩
    · refine .held (t := t) (Spinlock.heldBy_handOut.mpr (Or.inr rfl)) ⟨htext, hspin⟩ rfl ?_
        List.suffix_rfl
      simp only [Function.update_self]
    · simp [htaken, bytes]
  | @send t text sender wire hup hwriting hsend =>
    obtain rfl := htold.up hup
    have hheld := (inv.phase t).heldBy hwriting
    have haccepted := hsend.accepted (inv.ready hup t hheld)
    cases hrest with
    | free hlocked => exact absurd hheld (inv.not_heldBy hlocked t)
    | @held u past text' _ hheld' hwriting' htaken hrest hsuffix =>
      obtain rfl := inv.lock.heldBy_unique hheld hheld'
      obtain rfl := hrest
      refine ⟨wire.accepted, sender.pending, ?_, .of_up hup (haccepted.trans htold.taken)⟩
      refine .held hheld ⟨hwriting'.text, hwriting'.spinning⟩ htaken ?_
        (hsend.pending.trans hsuffix)
      simp only [Function.update_self]
  | @drop t text k lock hup hwriting hdone hlock =>
    have hheld := (inv.phase t).heldBy hwriting
    obtain ⟨-, -, hlocked⟩ := inv.lock.not_heldBy_drop (u := t) hlock
    cases hrest with
    | free hlocked => exact absurd hheld (inv.not_heldBy hlocked t)
    | @held u past text' _ hheld' hwriting' htaken hrest hsuffix =>
      obtain rfl := inv.lock.heldBy_unique hheld hheld'
      obtain rfl := hrest.symm.trans hdone
      exact ⟨written, [], .free hlocked, htold.taken, htold.wire, htold.suffix⟩
  | shift hshift =>
    refine ⟨written, rest, hrest.congr rfl rfl rfl rfl, htold.taken, ?_, htold.suffix⟩
    rw [hshift.accepted]
    exact htold.wire
  | crash handler texts hup =>
    obtain rfl := htold.up hup
    exact ⟨s.wire.accepted, rest, hrest.congr rfl rfl rfl rfl, htold.taken, rfl, List.suffix_rfl⟩
  | emergency hdown _ hsend =>
    have hwire := htold.wire
    have hsuffix := htold.suffix
    simp only [unreported, report, hdown] at hwire hsuffix
    exact ⟨written, rest, hrest.congr rfl rfl rfl rfl, htold.taken,
      (hsend.accepted (inv.crashReady _ hdown)).trans hwire, hsend.pending.trans hsuffix⟩

theorem Step.inv (h : Step arch s a s') (inv : Inv arch s) : Inv arch s' where
  lock := h.lock inv
  phase := h.phase inv
  ready := h.ready inv
  crashReady _ := h.crashReady inv
  blocked _ := h.blocked inv
  told := h.told inv

theorem invariant (arch : Arch) : (system arch : System (Lines ι)).Invariant (Inv arch) where
  init {s} h := by
    obtain ⟨hlock, hwire, htext, htaken, hcrash⟩ := h
    have hnone : ∀ t, ¬ s.lock.HeldBy t := hlock ▸ Spinlock.not_heldBy_new ()
    refine ⟨hlock ▸ Spinlock.Inv.new, fun t => .idle ?_ ?_ (hnone t),
      fun _ t h => absurd h (hnone t), fun _ h => ?_, fun _ h => ?_, [], [], .free ?_, ?_, ?_, ?_⟩
    · rw [htext]
    · rw [hlock]
      rfl
    · exact absurd (h.symm.trans hcrash) (by simp)
    · exact absurd (h.symm.trans hcrash) (by simp)
    · rw [hlock]
      rfl
    · rw [htaken]
      rfl
    · simp [hwire, Wire.accepted, unreported, report, hcrash, bytes]
    · simp [unreported, hcrash]
  step inv h := by
    obtain ⟨a, h⟩ := h
    exact h.inv inv

/-- One thread at a time writes, and what the chip has is the texts, each in one piece and in the
order of their calls, as far as the last of them has come, and then a report. -/
structure Whole (s : Lines ι) : Prop where
  exclusive : ∀ t u text text', s.Writing t text → s.Writing u text' → t = u
  told : ∃ written rest, s.Told written rest ∧ (rest = [] ∨ ∃ t past text, s.Writing t text ∧
    s.taken = past ++ [text] ∧ rest <:+ expandLfToCrlf text)

theorem Writing.turns {p : Sender UInt8 × Wire UInt8} (hwriting : s.Writing t text)
    (hup : s.crash = none) (h : (transmitter arch).Moves (s.sender t, s.wire) p) :
    Turns (Step arch) (fun a => a = .chip ∨ a = .thread t) s { s with
      wire := p.2
      sender := Function.update s.sender t p.1 } := by
  induction h with
  | refl =>
    rw [Function.update_eq_self]
    exact Relation.ReflTransGen.refl
  | tail _ hmove ih =>
    cases hmove with
    | @send sender sender' wire wire' hsend =>
      have hstep : Step arch { s with
          wire := wire
          sender := Function.update s.sender t sender } (.thread t) _ :=
        .send hup ⟨hwriting.text, hwriting.spinning⟩ (by simpa using hsend)
      rw [Function.update_idem] at hstep
      exact ih.tail ⟨_, Or.inr rfl, hstep⟩
    | shift hshift => exact ih.tail ⟨_, Or.inl rfl, .shift hshift⟩

theorem emergency_turns {d : Dump} {p : Sender UInt8 × Wire UInt8} (hdown : s.crash = some d)
    (hfree : d.handler.waits arch = true → s.lock.locked = false)
    (h : (transmitter arch).Moves (d.sender, s.wire) p) :
    Turns (Step arch) (fun a => a = .chip ∨ a = .handler) s { s with
      wire := p.2
      crash := some { d with sender := p.1 } } := by
  induction h with
  | refl =>
    rw [← hdown]
    exact Relation.ReflTransGen.refl
  | tail _ hmove ih =>
    cases hmove with
    | @send sender sender' wire wire' hsend =>
      exact ih.tail ⟨_, Or.inr rfl, .emergency (d := { d with sender := sender }) rfl hfree hsend⟩
    | shift hshift => exact ih.tail ⟨_, Or.inl rfl, .shift hshift⟩

theorem chip_turns (arch : Arch) {wire : Wire UInt8}
    (h : Relation.ReflTransGen Transmitter.Shift s.wire wire) :
    Turns (Step arch) (· = .chip) s { s with wire := wire } := by
  induction h with
  | refl => exact Relation.ReflTransGen.refl
  | tail _ hshift ih => exact ih.tail ⟨_, rfl, .shift hshift⟩

omit [DecidableEq ι] in
theorem Inv.accepted_of_free (inv : Inv arch s) (hup : s.crash = none)
    (hlocked : s.lock.locked = false) : s.wire.accepted = bytes s.taken := by
  obtain ⟨written, rest, hrest, htold⟩ := inv.told
  obtain rfl := hrest.eq_nil (inv.not_heldBy hlocked)
  rw [← htold.up hup, ← htold.taken, List.append_nil]

omit [DecidableEq ι] in
theorem Inv.accepted_of_heldBy (inv : Inv arch s) (hup : s.crash = none)
    (hheld : s.lock.HeldBy t) : (∃ text, s.Writing t text) ∧
      s.wire.accepted ++ (s.sender t).pending = bytes s.taken := by
  obtain ⟨written, rest, hrest, htold⟩ := inv.told
  cases hrest with
  | free hlocked => exact absurd hheld (inv.not_heldBy hlocked t)
  | held hheld' hwriting _ hrest =>
    obtain rfl := inv.lock.heldBy_unique hheld hheld'
    rw [← htold.up hup, hrest]
    exact ⟨⟨_, hwriting⟩, htold.taken⟩

theorem Inv.leaves (inv : Inv arch s) (hup : s.crash = none) (hheld : s.lock.HeldBy t) :
    ∃ s', Turns (Step arch) (fun a => a = .chip ∨ a = .thread t) s s' ∧ s'.crash = none ∧
      s'.lock.locked = false ∧ s'.text = Function.update s.text t none ∧
      s'.lock.spinning = s.lock.spinning ∧ s'.taken = s.taken ∧ s'.wire = ⟨[], bytes s.taken⟩ := by
  obtain ⟨⟨text, hwriting⟩, haccepted⟩ := inv.accepted_of_heldBy hup hheld
  obtain ⟨sender, hdone, hmoves⟩ := Transmitter.exists_finished (inv.ready hup t hheld)
  obtain ⟨k, lock, hlock⟩ := hheld.drop hwriting.spinning
  obtain ⟨-, hspin, hlocked⟩ := inv.lock.not_heldBy_drop (u := t) hlock
  rw [haccepted] at hmoves
  have hturns := hwriting.turns hup hmoves
  refine ⟨_, hturns.tail ⟨_, Or.inr rfl, .drop hup ⟨hwriting.text, hwriting.spinning⟩ ?_ hlock⟩,
    hup, hlocked, rfl, hspin, rfl, rfl⟩
  simpa using hdone

theorem Inv.frees (inv : Inv arch s) (hup : s.crash = none) (t : ι) :
    ∃ s', Turns (Step arch) (fun a => a = .chip ∨ ∃ u, s.lock.HeldBy u ∧ a = .thread u) s s' ∧
      s'.crash = none ∧ s'.lock.locked = false ∧
      s'.text t = (if s.lock.spinning t then s.text t else none) ∧
      s'.lock.spinning = s.lock.spinning ∧ s'.taken = s.taken ∧ s'.wire = ⟨[], bytes s.taken⟩ := by
  cases hlocked : s.lock.locked with
  | false =>
    have hturns := chip_turns arch (Transmitter.exists_drained s.wire)
    rw [inv.accepted_of_free hup hlocked] at hturns
    exact ⟨_, hturns.mono fun _ => Or.inl, hup, hlocked,
      (inv.phase t).text_eq (inv.not_heldBy hlocked t), rfl, rfl, rfl⟩
  | true =>
    obtain ⟨u, hheld⟩ := inv.lock.heldBy_iff.mpr hlocked
    obtain ⟨s', hturns, hup', hfree, htext, hspin, htaken, hwire⟩ := inv.leaves hup hheld
    refine ⟨s', hturns.mono fun a ha => ha.imp_right fun ha => ⟨u, hheld, ha⟩, hup', hfree, ?_,
      hspin, htaken, hwire⟩
    rw [htext]
    rcases eq_or_ne t u with rfl | ht
    · obtain ⟨⟨text, hwriting⟩, -⟩ := inv.accepted_of_heldBy hup hheld
      rw [Function.update_self, hwriting.spinning, if_neg Bool.false_ne_true]
    · rw [Function.update_of_ne ht]
      exact (inv.phase t).text_eq fun h => ht (inv.lock.heldBy_unique h hheld)

theorem Inv.takes (inv : Inv arch s) (hup : s.crash = none) (hlocked : s.lock.locked = false)
    (hspin : s.lock.spinning t = true) (htext : s.text t = some text) :
    ∃ s', Turns (Step arch) (fun a => a = .chip ∨ a = .thread t) s s' ∧ s'.text t = none ∧
      s'.taken = s.taken ++ [text] ∧ s'.wire = ⟨[], bytes s'.taken⟩ := by
  have hstep : Step arch s (.thread t) _ := .take hup htext
    (Spinlock.spin_of_free hspin hlocked) (Function.update_self _ _ _)
  obtain ⟨s', hturns, -, -, htext', -, htaken, hwire⟩ :=
    (hstep.inv inv).leaves hup (Spinlock.heldBy_handOut.mpr (Or.inr rfl))
  refine ⟨s', (Turns.single hstep |>.mono fun _ => Or.inr).trans hturns, ?_, htaken, ?_⟩
  · rw [htext', Function.update_self]
  · rw [hwire, htaken]

theorem reachable_step (h : (system arch).Reachable s) (hstep : Step arch s a s') :
    (system arch).Reachable s' := h.steps ((System.Steps.refl s).tail ⟨a, hstep⟩)

theorem exists_contended (arch : Arch) : ∃ s : Lines (Fin 2), (system arch).Reachable s ∧
    s.crash = none ∧ s.lock.HeldBy 0 ∧ s.lock.spinning 1 = true ∧ s.text 1 = some ['b'] ∧
    s.taken = [['a']] := by
  have h₀ : (system arch).Reachable
      (⟨.new (), ⟨[], []⟩, fun _ => none, fun _ => ⟨[], false⟩, [], none⟩ : Lines (Fin 2)) :=
    System.Reachable.init ⟨rfl, rfl, rfl, rfl, rfl⟩
  have h₁ := reachable_step h₀ (.call (t := 0) ['a'] rfl rfl rfl)
  have h₂ := reachable_step h₁ (.call (t := 1) ['b'] rfl rfl rfl)
  have h₃ := reachable_step h₂
    (.take (t := 0) rfl (rfl : _ = some ['a']) (Spinlock.spin_of_free rfl rfl) rfl)
  exact ⟨_, h₃, rfl, Spinlock.heldBy_handOut.mpr (Or.inr rfl), rfl, rfl, rfl⟩

theorem texts_whole (h : (system arch).Reachable s) : s.Whole := by
  have inv := (invariant arch).reachable h
  refine ⟨fun t u text text' ht hu =>
    inv.lock.heldBy_unique ((inv.phase t).heldBy ht) ((inv.phase u).heldBy hu), ?_⟩
  obtain ⟨written, rest, hrest, htold⟩ := inv.told
  refine ⟨written, rest, htold, ?_⟩
  cases hrest with
  | free => exact Or.inl rfl
  | held _ hwriting htaken _ hsuffix => exact Or.inr ⟨_, _, _, hwriting, htaken, hsuffix⟩

theorem texts_whole_contended : ∃ s : Lines (Fin 2), s.lock.HeldBy 0 ∧ s.lock.spinning 1 = true ∧
    s.Whole := by
  obtain ⟨s, h, -, hheld, hspin, -⟩ := exists_contended .x86_64
  exact ⟨s, hheld, hspin, texts_whole h⟩

theorem texts_sent (h : (system arch).Reachable s) (hup : s.crash = none) (t : ι) :
    ∃ s', Turns (Step arch)
      (fun a => a = .chip ∨ a = .thread t ∨ ∃ u, s.lock.HeldBy u ∧ a = .thread u) s s' ∧
      s'.text t = none ∧
      s'.taken = s.taken ++ (if s.lock.spinning t then (s.text t).toList else []) ∧
      s'.wire = ⟨[], bytes s'.taken⟩ := by
  have inv := (invariant arch).reachable h
  obtain ⟨s₁, hturns₁, hup₁, hlocked₁, htext₁, hspin₁, htaken₁, hwire₁⟩ := inv.frees hup t
  have hturns₁' : Turns (Step arch)
      (fun a => a = .chip ∨ a = .thread t ∨ ∃ u, s.lock.HeldBy u ∧ a = .thread u) s s₁ :=
    hturns₁.mono fun a ha => ha.imp_right Or.inr
  cases hspin : s.lock.spinning t with
  | false =>
    rw [hspin] at htext₁
    refine ⟨s₁, hturns₁', htext₁, ?_, ?_⟩
    · simp [htaken₁]
    · rw [hwire₁, htaken₁]
  | true =>
    rw [hspin, if_pos rfl] at htext₁
    have inv₁ := (invariant arch).steps inv (hturns₁.steps fun hstep => ⟨_, hstep⟩)
    obtain ⟨text, htext⟩ : ∃ text, s.text t = some text := by
      cases inv.phase t with
      | idle _ hnot => exact absurd (hspin.symm.trans hnot) (by simp)
      | waiting htext => exact ⟨_, htext⟩
      | writing hwriting => exact ⟨_, hwriting.text⟩
    obtain ⟨s', hturns, hidle, htaken, hwire⟩ := inv₁.takes hup₁ hlocked₁
      ((congrFun hspin₁ t).trans hspin) (htext₁.trans htext)
    refine ⟨s', hturns₁'.trans (hturns.mono fun a ha => ha.imp_right Or.inl), hidle, ?_, hwire⟩
    simp [htaken, htaken₁, htext]

theorem texts_sent_contended : ∃ s s' : Lines (Fin 2), s.lock.HeldBy 0 ∧
    s.lock.spinning 1 = true ∧ Turns (Step .aarch64)
      (fun a => a = .chip ∨ a = .thread 1 ∨ ∃ u, s.lock.HeldBy u ∧ a = .thread u) s s' ∧
    s'.text 1 = none ∧ s'.wire = ⟨[], [97, 98]⟩ := by
  obtain ⟨s, h, hup, hheld, hspin, htext, htaken⟩ := exists_contended .aarch64
  obtain ⟨s', hturns, hidle, htaken', hwire⟩ := texts_sent h hup 1
  refine ⟨s, s', hheld, hspin, hturns, hidle, hwire.trans ?_⟩
  rw [htaken', htaken, hspin, if_pos rfl, htext]
  exact congrArg (Wire.mk []) (by decide)

/-- After a crash nobody moves but the handler and the chip. -/
theorem stuck_steps (hsteps : (system arch).Steps s s') {d : Dump} (hdown : s.crash = some d)
    (hwaits : d.handler.waits arch = true) (hlocked : s.lock.locked = true) :
    s'.crash = some d ∧ s'.lock.locked = true ∧ s'.wire.accepted = s.wire.accepted := by
  induction hsteps with
  | refl => exact ⟨hdown, hlocked, rfl⟩
  | tail _ hstep ih =>
    obtain ⟨hdown, hlocked, haccepted⟩ := ih
    obtain ⟨a, hstep⟩ := hstep
    cases hstep with
    | call _ hup | wait hup | take hup | send hup | drop hup | crash _ _ hup =>
      exact absurd (hdown.symm.trans hup) (by simp)
    | shift hshift => exact ⟨hdown, hlocked, hshift.accepted.trans haccepted⟩
    | emergency hdown' hfree =>
      obtain rfl := Option.some.inj (hdown.symm.trans hdown')
      exact absurd (hlocked.symm.trans (hfree hwaits)) (by simp)

/-- What comes of the report of a handler that breaks in: it follows what was written by then, or
it is never begun, where the handler waits for a lock that is held. -/
theorem report_sent (h : (system arch).Reachable s) {d : Dump} (hdown : s.crash = some d) :
    ∃ written, written <+: bytes s.taken ∧
      if d.handler.waits arch = true ∧ s.lock.locked = true then
        ∀ s', (system arch).Steps s s' → s'.wire.accepted = written
      else ∃ s', Turns (Step arch) (fun a => a = .chip ∨ a = .handler) s s' ∧
        s'.wire = ⟨[], written ++ bytes d.texts⟩ := by
  have inv := (invariant arch).reachable h
  obtain ⟨written, rest, -, htold⟩ := inv.told
  have hwire := htold.wire
  simp only [unreported, report, hdown, Option.elim_some] at hwire
  refine ⟨written, ⟨rest, htold.taken⟩, ?_⟩
  split
  · rename_i hblocked
    obtain ⟨hwaits, hlocked⟩ := hblocked
    rw [inv.blocked d hdown hwaits hlocked] at hwire
    intro s' hsteps
    rw [(stuck_steps hsteps hdown hwaits hlocked).2.2]
    exact List.append_cancel_right hwire
  · rename_i hfree
    obtain ⟨sender, -, hmoves⟩ := Transmitter.exists_finished (inv.crashReady d hdown)
    rw [hwire] at hmoves
    exact ⟨_, emergency_turns hdown (fun hwaits => by simpa [hwaits] using hfree) hmoves, rfl⟩

theorem report_sent_contended : ∃ s s' : Lines (Fin 2), s.lock.HeldBy 0 ∧ s.taken = [['a']] ∧
    Turns (Step .x86_64) (fun a => a = .chip ∨ a = .handler) s s' ∧
    ∃ written, written <+: [97] ∧ s'.wire = ⟨[], written ++ [33, 13, 10]⟩ := by
  obtain ⟨s, h, hup, hheld, -, -, htaken⟩ := exists_contended .x86_64
  obtain ⟨written, hprefix, s', hturns, hwire⟩ :=
    report_sent (reachable_step h (.crash .exception [['!', '\n']] hup)) rfl
  have hbytes : bytes s.taken = [97] := by
    rw [htaken]
    decide
  refine ⟨_, s', ?_, ?_, hturns, written, hbytes ▸ hprefix, hwire⟩
  · exact hheld
  · exact htaken

end

end Lines

end Uart

end FerricK
