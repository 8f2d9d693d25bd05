import FerricK.Keyboard.Framing
import FerricK.Lib.Poll

/-! The two input devices, each with the bytes it has received: the drain of the keyboard and that
of the UART. -/

namespace FerricK

/-- `status` are the other bits of the status port. -/
structure Ps2 where
  queue : List UInt8
  status : UInt8

namespace Ps2

def statusOutputFull : UInt8 := 1

def readStatus (p : Ps2) : UInt8 :=
  if p.queue = [] then p.status &&& ~~~statusOutputFull else p.status ||| statusOutputFull

/-- The next output byte; the code reads none from an empty buffer. -/
def readData (p : Ps2) : UInt8 × Ps2 := (p.queue.headD 0, { p with queue := p.queue.tail })

def outputFull (p : Ps2) : Bool := p.readStatus &&& statusOutputFull ≠ 0

def pollByte (p : Ps2) : Option UInt8 × Ps2 :=
  if !p.outputFull then (none, p) else (some p.readData.1, p.readData.2)

theorem outputFull_iff (p : Ps2) : p.outputFull = true ↔ p.queue ≠ [] := by
  have hall : ∀ status : UInt8, (status &&& ~~~1) &&& 1 = 0 ∧ (status ||| 1) &&& 1 ≠ 0 :=
    Bytes.forall_byte (by decide +kernel)
  obtain ⟨hempty, hfull⟩ := hall p.status
  rw [outputFull, readStatus, statusOutputFull]
  by_cases hqueue : p.queue = []
  · simp [hqueue, hempty]
  · simp [hqueue, hfull]

theorem pollByte_nil {status : UInt8} : pollByte ⟨[], status⟩ = (none, ⟨[], status⟩) := by
  have hempty : outputFull ⟨[], status⟩ = false := by
    rw [← Bool.not_eq_true, outputFull_iff]
    simp
  simp [pollByte, hempty]

theorem pollByte_cons {byte : UInt8} {queue : List UInt8} {status : UInt8} :
    pollByte ⟨byte :: queue, status⟩ = (some byte, ⟨queue, status⟩) := by
  have hfull : outputFull ⟨byte :: queue, status⟩ = true := by simp [outputFull_iff]
  simp [pollByte, hfull, readData]

end Ps2

structure Ps2Keyboard where
  controller : Ps2
  decoder : ScancodeDecoder

namespace Ps2Keyboard

theorem pollByte_lt {p p' : Ps2} {byte : UInt8} (h : p.pollByte = (some byte, p')) :
    p'.queue.length < p.queue.length := by
  obtain ⟨queue, status⟩ := p
  cases queue with
  | nil => cases Ps2.pollByte_nil.symm.trans h
  | cons first queue =>
    cases Ps2.pollByte_cons.symm.trans h
    exact Nat.lt_succ_self _

def nextKey (k : Ps2Keyboard) : Option KeyEvent × Ps2Keyboard :=
  match _h : k.controller.pollByte with
  | (none, controller) => (none, { k with controller := controller })
  | (some byte, controller) =>
    match k.decoder.push byte with
    | (some event, decoder) => (some event, ⟨controller, decoder⟩)
    | (none, decoder) => nextKey ⟨controller, decoder⟩
termination_by k.controller.queue.length
decreasing_by exact pollByte_lt _h

def queue (k : Ps2Keyboard) : List UInt8 := k.controller.queue

variable {status byte : UInt8} {bytes : List UInt8} {d : ScancodeDecoder}

theorem nextKey_nil : nextKey ⟨⟨[], status⟩, d⟩ = (none, ⟨⟨[], status⟩, d⟩) := by
  rw [nextKey]
  split
  · rename_i h
    cases Ps2.pollByte_nil.symm.trans h
    rfl
  · rename_i h
    cases Ps2.pollByte_nil.symm.trans h

theorem nextKey_cons : nextKey ⟨⟨byte :: bytes, status⟩, d⟩ =
    (d.push byte).1.elim (nextKey ⟨⟨bytes, status⟩, (d.push byte).2⟩) fun event =>
      (some event, ⟨⟨bytes, status⟩, (d.push byte).2⟩) := by
  rw [nextKey]
  split
  · rename_i hpoll
    cases Ps2.pollByte_cons.symm.trans hpoll
  · rename_i hpoll
    cases Ps2.pollByte_cons.symm.trans hpoll
    rcases d.push byte with ⟨_ | event, d'⟩ <;> rfl

theorem nextKey_some {event : KeyEvent} {d' : ScancodeDecoder}
    (h : d.push byte = (some event, d')) :
    nextKey ⟨⟨byte :: bytes, status⟩, d⟩ = (some event, ⟨⟨bytes, status⟩, d'⟩) := by
  rw [nextKey_cons, h]
  rfl

theorem nextKey_none {d' : ScancodeDecoder} (h : d.push byte = (none, d')) :
    nextKey ⟨⟨byte :: bytes, status⟩, d⟩ = nextKey ⟨⟨bytes, status⟩, d'⟩ := by
  rw [nextKey_cons, h]
  rfl

theorem empties (d : ScancodeDecoder) (status : UInt8) (bytes : List UInt8) :
    Poll.Empties nextKey queue ⟨⟨bytes, status⟩, d⟩ (d.feed bytes).1 := by
  induction bytes generalizing d with
  | nil => exact (Poll.empties_of_none nextKey_nil).mpr ⟨rfl, rfl⟩
  | cons byte bytes ih =>
    rw [ScancodeDecoder.feed, Mealy.feed, ← ScancodeDecoder.feed]
    cases hpush : d.push byte with
    | mk event d' =>
      cases event with
      | some event => exact (Poll.empties_of_some (nextKey_some hpush)).mpr (ih d')
      | none => exact (ih d').congr (nextKey_none hpush)

end Ps2Keyboard

/-- LF is Enter too; the other control bytes, and those from 0x80 on, are no key. -/
def terminalByteToKey (byte : UInt8) : Option KeyEvent :=
  let key :=
    if byte = 0x0D ∨ byte = 0x0A then some Key.enter
    else if byte = 0x08 ∨ byte = 0x7F then some .backspace
    else if byte = 0x09 then some .tab
    else if byte = 0x1B then some .escape
    else if 0x20 ≤ byte ∧ byte ≤ 0x7E then some (.char (Char.ofNat byte.toNat))
    else none
  key.map .press

/-- The words of the receive FIFO, a byte below its error bits; `flags` are the other bits of the
flag register. -/
structure Pl011Uart where
  fifo : List UInt32
  flags : UInt32

namespace Pl011Uart

def frRxfe : UInt32 := 0x10

def readFr (u : Pl011Uart) : UInt32 :=
  if u.fifo = [] then u.flags ||| frRxfe else u.flags &&& ~~~frRxfe

def readDr (u : Pl011Uart) : UInt32 × Pl011Uart := (u.fifo.headD 0, { u with fifo := u.fifo.tail })

def byteOf (word : UInt32) : UInt8 := (word &&& 0xFF).toUInt8

def pollByte (u : Pl011Uart) : Option UInt8 × Pl011Uart :=
  if u.readFr &&& frRxfe ≠ 0 then (none, u) else (some (byteOf u.readDr.1), u.readDr.2)

def pollKey (u : Pl011Uart) : Option KeyEvent × Pl011Uart :=
  match u.pollByte with
  | (none, u) => (none, u)
  | (some byte, u) => (terminalByteToKey byte, u)

def events (u : Pl011Uart) : List KeyEvent :=
  u.fifo.filterMap fun word => terminalByteToKey (byteOf word)

/-- A byte that is no key has nothing behind it. -/
def OnlyLastUnmapped (u : Pl011Uart) : Prop :=
  ∀ l word r, u.fifo = l ++ word :: r → terminalByteToKey (byteOf word) = none → r = []

variable {word flags : UInt32} {words : List UInt32}

theorem or_and_self (a m : UInt32) : (a ||| m) &&& m = m := by
  apply UInt32.toBitVec_inj.mp
  ext i
  simp only [UInt32.toBitVec_and, UInt32.toBitVec_or, BitVec.getElem_and, BitVec.getElem_or]
  cases m.toBitVec[i] <;> simp

theorem and_not_and_self (a m : UInt32) : a &&& ~~~m &&& m = 0 := by
  rw [UInt32.and_assoc, UInt32.and_comm (~~~m), UInt32.and_not_self, UInt32.and_zero]

theorem readFr_and (u : Pl011Uart) : u.readFr &&& frRxfe = 0 ↔ u.fifo ≠ [] := by
  rw [readFr]
  by_cases hfifo : u.fifo = []
  · rw [if_pos hfifo, or_and_self]
    exact iff_of_false (by decide) (not_not.mpr hfifo)
  · rw [if_neg hfifo, and_not_and_self]
    exact iff_of_true rfl hfifo

theorem pollKey_nil : pollKey ⟨[], flags⟩ = (none, ⟨[], flags⟩) := by
  have hempty : readFr ⟨[], flags⟩ &&& frRxfe ≠ 0 := by
    rw [ne_eq, readFr_and]
    simp
  simp [pollKey, pollByte, hempty]

theorem pollKey_cons : pollKey ⟨word :: words, flags⟩ =
    (terminalByteToKey (byteOf word), ⟨words, flags⟩) := by
  have hword : readFr ⟨word :: words, flags⟩ &&& frRxfe = 0 := by simp [readFr_and]
  simp [pollKey, pollByte, hword, readDr]

theorem onlyLastUnmapped_cons : OnlyLastUnmapped ⟨word :: words, flags⟩ ↔
    (terminalByteToKey (byteOf word) = none → words = []) ∧ OnlyLastUnmapped ⟨words, flags⟩ := by
  constructor
  · intro h
    refine ⟨h [] word words rfl, fun l word' r heq => ?_⟩
    exact h (word :: l) word' r (congrArg (word :: ·) heq)
  · rintro ⟨hfirst, hrest⟩ l word' r heq hnone
    cases l with
    | nil =>
      obtain ⟨rfl, rfl⟩ := List.cons.inj heq
      exact hfirst hnone
    | cons first l => exact hrest l word' r (List.cons.inj heq).2 hnone

theorem empties_iff (words : List UInt32) (flags : UInt32) :
    Poll.Empties pollKey fifo ⟨words, flags⟩ (events ⟨words, flags⟩) ↔
      OnlyLastUnmapped ⟨words, flags⟩ := by
  induction words with
  | nil =>
    refine iff_of_true ((Poll.empties_of_none pollKey_nil).mpr ⟨rfl, rfl⟩) ?_
    intro l word r heq
    simp at heq
  | cons word words ih =>
    rw [onlyLastUnmapped_cons, ← ih]
    cases hkey : terminalByteToKey (byteOf word) with
    | some event =>
      have hevents : events ⟨word :: words, flags⟩ = event :: events ⟨words, flags⟩ := by
        simp [events, hkey]
      rw [hevents, Poll.empties_of_some (by rw [pollKey_cons, hkey])]
      simp
    | none =>
      have hevents : events ⟨word :: words, flags⟩ = events ⟨words, flags⟩ := by
        simp [events, hkey]
      rw [hevents, Poll.empties_of_none (by rw [pollKey_cons, hkey])]
      constructor
      · rintro ⟨-, rfl⟩
        exact ⟨fun _ => rfl, (Poll.empties_of_none pollKey_nil).mpr ⟨rfl, rfl⟩⟩
      · rintro ⟨hlast, -⟩
        obtain rfl := hlast rfl
        exact ⟨rfl, rfl⟩

end Pl011Uart

theorem polled_empties_iff (k : Ps2Keyboard) (u : Pl011Uart) :
    Poll.Empties Ps2Keyboard.nextKey Ps2Keyboard.queue k (k.decoder.feed k.queue).1 ∧
      (Poll.Empties Pl011Uart.pollKey Pl011Uart.fifo u u.events ↔ u.OnlyLastUnmapped) :=
  ⟨Ps2Keyboard.empties k.decoder k.controller.status k.controller.queue,
    Pl011Uart.empties_iff u.fifo u.flags⟩

/-- Ctrl-C, then `a`: the poll has nothing, and `a` waits. -/
theorem control_byte_stops_drain :
    Pl011Uart.pollKey ⟨[0x03, 0x61], 0⟩ = (none, ⟨[0x61], 0⟩) ∧
      ¬ Poll.Empties Pl011Uart.pollKey Pl011Uart.fifo ⟨[0x03, 0x61], 0⟩
        (Pl011Uart.events ⟨[0x03, 0x61], 0⟩) := by
  have hpoll : Pl011Uart.pollKey ⟨[0x03, 0x61], 0⟩ = (none, ⟨[0x61], 0⟩) := rfl
  refine ⟨hpoll, ?_⟩
  rw [Poll.empties_of_none hpoll]
  simp

end FerricK
