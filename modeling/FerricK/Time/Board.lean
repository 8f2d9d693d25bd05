import FerricK.Irq.Idt
import FerricK.Lib.I8254
import FerricK.Lib.I8259
import FerricK.Lib.System
import FerricK.Time.Drivers

/-! The interrupt controllers and the interval timer of a PC, and the driver that runs on them. -/

namespace FerricK.Pit

structure Board where
  master : I8259
  slave : I8259
  counter : I8254
  deriving DecidableEq

structure Settings where
  master : I8259.Control
  slave : I8259.Control
  counter : I8254.Control
  deriving DecidableEq

def Settings.perform (g : Settings) : TimerWrite → Settings
  | .out port v =>
    if port = pic1Cmd then { g with master := g.master.command v.toBitVec }
    else if port = pic1Data then { g with master := g.master.data v.toBitVec }
    else if port = pic2Cmd then { g with slave := g.slave.command v.toBitVec }
    else if port = pic2Data then { g with slave := g.slave.data v.toBitVec }
    else if port = 0x40 then { g with counter := g.counter.data v.toBitVec }
    else if port = 0x43 ∧ v >>> 6 = 0 then { g with counter := g.counter.command v.toBitVec }
    else g
  | _ => g

namespace Board

def settings (b : Board) : Settings where
  master := b.master.toControl
  slave := b.slave.toControl
  counter := b.counter.toControl

/-- A control word names its counter in its high bits. -/
def perform (b : Board) : TimerWrite → Board
  | .out port v =>
    if port = pic1Cmd then { b with master := b.master.command v.toBitVec }
    else if port = pic1Data then { b with master := b.master.data v.toBitVec }
    else if port = pic2Cmd then { b with slave := b.slave.command v.toBitVec }
    else if port = pic2Data then { b with slave := b.slave.data v.toBitVec }
    else if port = 0x40 then { b with counter := b.counter.data v.toBitVec }
    else if port = 0x43 ∧ v >>> 6 = 0 then { b with counter := b.counter.command v.toBitVec }
    else b
  | _ => b

def wire (b : Board) : Board :=
  { b with
    master := (b.master.setLine 2 b.slave.pending.isSome).setLine 0 b.counter.out }

def take (b : Board) (n : Nat) : Board := { b with master := b.master.take n }

/-- A clock of the oscillator; `out` is the output of a counter in another mode than the
driver's. -/
def clock (b : Board) (out : Bool) : Board :=
  { b with
    counter := if b.counter.Square then b.counter.clock else { b.counter with out := out } }

end Board

def initWrites : List TimerWrite := (init ⟨.new, 0, 0, []⟩).writes

def handlerWrites : List TimerWrite := (handleTimerIrq ⟨.new, 0, 0, []⟩).writes

/-- What the processor is at: the rest of `init`, the kernel with its interrupt flag, a request seen
and not acknowledged yet, the timer's stub before and after the tick, or an interrupt without a
gate. -/
inductive Main
  | starting (rest : List TimerWrite)
  | running (enabled : Bool)
  | recognized
  | accepted
  | ending (rest : List TimerWrite)
  | faulted (vector : BitVec 8)
  deriving DecidableEq

/-- Since the last write of `init`, `clocks` counts those of the oscillator and `missed` the
requests that fell with the output; `early` is whether one was latched by then. -/
structure State where
  board : Board
  time : Time
  main : Main
  clocks : Nat
  early : Bool
  missed : Nat
  deriving DecidableEq

inductive Action
  | line (ofSlave : Bool) (n : Nat) (level : Bool)
  | clock (out : Bool)
  | write
  | started
  | setInterrupts (enabled : Bool)
  | recognize
  | acknowledge
  | bump
  | finish
  deriving DecidableEq

namespace State

def latched (s : State) : Bool := s.board.master.irr.getLsbD 0

def change (s : State) (b : Board) : State := { s with board := b.wire }

/-- Devices move the lines of their controller, but for those that are wired. -/
def line (s : State) (ofSlave : Bool) (n : Nat) (level : Bool) : Option State :=
  if ofSlave then some (s.change { s.board with slave := s.board.slave.setLine n level })
  else if n ≠ 0 ∧ n ≠ 2 then
    some (s.change { s.board with master := s.board.master.setLine n level })
  else none

def clock (s : State) (out : Bool) : State :=
  let fell := s.board.counter.out && !(s.board.clock out).counter.out
  { s.change (s.board.clock out) with
    clocks := s.clocks + 1
    missed := s.missed + (fell && s.latched).toNat }

def write (s : State) : Option State :=
  match s.main with
  | .starting (w :: rest) =>
    let s' := s.change (s.board.perform w)
    some { s' with main := .starting rest, clocks := 0, early := s'.latched, missed := 0 }
  | .ending (w :: rest) => some { s.change (s.board.perform w) with main := .ending rest }
  | _ => none

def recognize (s : State) : Option State :=
  if s.main = .running true ∧ s.board.master.pending.isSome then
    some { s with main := .recognized }
  else none

def acknowledge (s : State) : Option State :=
  if s.main = .recognized then
    let (vector, master, slave) := I8259.acknowledge s.board.master s.board.slave
    some { s.change { s.board with master := master, slave := slave } with
      main := if vector = Idt.irq0Vector then .accepted else .faulted vector }
  else none

def act (s : State) : Action → Option State
  | .line ofSlave n level => s.line ofSlave n level
  | .clock out => some (s.clock out)
  | .write => s.write
  | .started => if s.main = .starting [] then some { s with main := .running false } else none
  | .setInterrupts enabled =>
    match s.main with
    | .running _ => some { s with main := .running enabled }
    | _ => none
  | .recognize => s.recognize
  | .acknowledge => s.acknowledge
  | .bump =>
    if s.main = .accepted then
      some { s with
        time := (handleTimerIrq ⟨s.time, 0, 0, []⟩).time
        main := .ending handlerWrites }
    else none
  | .finish => if s.main = .ending [] then some { s with main := .running true } else none

end State

/-- The wires agree with what drives them, whatever the firmware has left. -/
def ticking : System State where
  init s := (∃ b : Board, s.board = b.wire) ∧ s.time = .new ∧ s.main = .starting initWrites
  step s s' := ∃ a, s.act a = some s'

def ready : Settings where
  master := ⟨0, 0xFA, 0x11, 0x20, 0x04, 0x01, .mask, 7, false⟩
  slave := ⟨0, 0xFF, 0x11, 0x28, 0x02, 0x01, .mask, 7, false⟩
  counter := ⟨3, 3, false, none, some timerDivisor.toNat⟩

variable {b : Board} {g : Settings} {s s' : State} {w : TimerWrite} {rest : List TimerWrite}

theorem initWrites_ready (g : Settings) : initWrites.foldl Settings.perform g = ready := by
  have hstart : icw1.toBitVec.getLsbD 4 = true := rfl
  have hmaster := g.master.initialize hstart rfl rfl 0x20 0x04 0x01 0xFA
  have hslave := g.slave.initialize hstart rfl rfl 0x28 0x02 0x01 0xFF
  have hcounter := g.counter.load (v := 0x36) rfl 0xA9 0x04
  exact (congrArg (Settings.mk · _ _) hmaster).trans
    ((congrArg (Settings.mk _ · _) hslave).trans (congrArg (Settings.mk _ _ ·) hcounter))

def serving : Settings := { ready with master := ready.master.serve 0 }

theorem handlerWrites_ready : handlerWrites.foldl Settings.perform serving = ready := by
  decide

namespace Board

theorem perform_settings (b : Board) (w : TimerWrite) :
    (b.perform w).settings = b.settings.perform w := by
  cases w with
  | out port v =>
    simp only [perform, Settings.perform]
    split_ifs
    all_goals try rfl
    -- a control word for the latch only leaves the counter as it is
    rw [settings, I8254.command]
    split
    case isTrue h => rw [I8254.Control.command, if_pos h]; rfl
    case isFalse h => rfl
  | gicd | gicc | cntpTval | cntpCtl => rfl

theorem wire_line (b : Board) : b.wire.master.lines.getLsbD 0 = b.counter.out :=
  I8259.setLine_lines_self (by decide) _

theorem wire_irr_zero (b : Board) : b.wire.master.irr.getLsbD 0 =
    (b.counter.out && (b.master.irr.getLsbD 0 || !b.master.lines.getLsbD 0)) := by
  rw [wire, I8259.setLine_irr_self (by decide), I8259.setLine_irr_of_ne (by decide) (by decide),
    I8259.setLine_lines_of_ne (by decide) (by decide)]

theorem wire_irr_two (h : b.slave.imr = 0xFF) : b.wire.master.irr.getLsbD 2 = false := by
  rw [wire, I8259.setLine_irr_of_ne (by decide) (by decide), I8259.setLine_irr_self (by decide),
    I8259.pending_of_masked h]
  rfl

theorem clock_settings (b : Board) (out : Bool) : (b.clock out).settings = b.settings := by
  rw [settings, clock]
  dsimp only
  split
  · rw [I8254.clock_toControl]
    rfl
  · rfl

end Board

end FerricK.Pit
