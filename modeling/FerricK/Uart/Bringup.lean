import FerricK.Uart.Lines

/-! The bring-up of a 16550 in any state, while its line and its shift registers go on. -/

namespace FerricK.Serial

structure Registers where
  ier : UInt8
  dll : UInt8
  dlm : UInt8
  fcr : UInt8
  lcr : UInt8
  mcr : UInt8

/-- `received` is the receive queue and `queue` the one to transmit, the first byte first.  The
shift registers are apart from them: `sending` is the byte that goes out, with whether the receiver
hears all of it, in loopback; `hearing` is whether the receiver is in the middle of anything else.
-/
structure Chip extends Registers where
  received : List UInt8
  queue : List UInt8
  sending : Option (UInt8 × Bool)
  hearing : Bool

inductive Reg
  | data
  | ier
  | fcr
  | lcr
  | mcr
  deriving DecidableEq

def lsrDataReady : UInt8 := (1 : UInt8) <<< 0

def lcrDlab : UInt8 := 0x80
def lcr8n1 : UInt8 := 0x03

def fcrEnable : UInt8 := (1 : UInt8) <<< 0
def fcrClearRx : UInt8 := (1 : UInt8) <<< 1
def fcrClearTx : UInt8 := (1 : UInt8) <<< 2
def fcrTrigger14 : UInt8 := (0b11 : UInt8) <<< 6

def mcrDtr : UInt8 := (1 : UInt8) <<< 0
def mcrRts : UInt8 := (1 : UInt8) <<< 1
def mcrOut1 : UInt8 := (1 : UInt8) <<< 2
def mcrOut2 : UInt8 := (1 : UInt8) <<< 3
def mcrLoopback : UInt8 := (1 : UInt8) <<< 4

def loopbackProbe : UInt8 := 0xae

namespace Registers

def dlab (g : Registers) : Bool := g.lcr &&& lcrDlab != 0
def loopback (g : Registers) : Bool := g.mcr &&& mcrLoopback != 0

def write (g : Registers) (v : UInt8) : Reg → Registers
  | .data => if g.dlab then { g with dll := v } else g
  | .ier => if g.dlab then { g with dlm := v } else { g with ier := v }
  | .fcr => { g with fcr := v }
  | .lcr => { g with lcr := v }
  | .mcr => { g with mcr := v }

theorem dlab_of_lcr {g : Registers} (h : g.lcr = lcrDlab) : g.dlab = true := by
  rw [dlab, h]
  decide

theorem not_dlab_of_lcr {g : Registers} (h : g.lcr = lcr8n1) : g.dlab = false := by
  rw [dlab, h]
  decide

theorem loopback_of_mcr {g : Registers} (h : g.mcr = 0x1e) : g.loopback = true := by
  rw [loopback, h]
  decide

end Registers

/-- A start bit for the receiver, the receiver done with what it hears, or the transmitter done with
a byte and on to the next. -/
inductive Env
  | start
  | arrive (b : UInt8)
  | shift
  deriving DecidableEq

namespace Chip

def receive (c : Chip) (b : UInt8) : Chip :=
  if c.received.length < 16 then { c with received := c.received ++ [b] } else c

def load (c : Chip) : Chip :=
  match c.queue with
  | [] => { c with sending := none }
  | b :: queue => { c with queue, sending := some (b, c.loopback && !c.hearing) }

/-- In loopback the receiver hears the transmitter and not the line; in a byte whose start it has
missed it may take any bit for a start, and make anything of what follows. -/
def happen (c : Chip) : Env → Chip
  | .start =>
    if c.loopback then
      match c.sending with
      | some (_, false) => { c with hearing := true }
      | _ => c
    else { c with hearing := true }
  | .arrive b => if c.hearing then { c with hearing := false }.receive b else c
  | .shift =>
    match c.sending with
    | some (b, true) => c.load.receive b
    | _ => c.load

def heard (c : Chip) : Env → List UInt8
  | .start => []
  | .arrive b => if c.hearing then [b] else []
  | .shift =>
    match c.sending with
    | some (b, true) => [b]
    | _ => []

def run (c : Chip) (env : List Env) : Chip := env.foldl happen c

theorem run_cons (c : Chip) (e : Env) (env : List Env) : c.run (e :: env) = (c.happen e).run env :=
  rfl

def heardIn (c : Chip) : List Env → List UInt8
  | [] => []
  | e :: env => c.heard e ++ (c.happen e).heardIn env

def tear (c : Chip) : Chip :=
  match c.sending with
  | some (b, true) => { c with sending := some (b, false), hearing := true }
  | _ => c

/-- The flush empties the queues and not the shift registers. -/
def write (c : Chip) (v : UInt8) (r : Reg) : Chip :=
  let c' := { c with toRegisters := c.toRegisters.write v r }
  match r with
  | .data =>
    if c.dlab then c'.tear
    else if c.queue.length < 16 then { c' with queue := c.queue ++ [v] }
    else c'
  | .ier => if c.dlab then c'.tear else c'
  | .fcr =>
    { c' with
      received := if v &&& fcrClearRx = 0 then c.received else []
      queue := if v &&& fcrClearTx = 0 then c.queue else [] }
  | .lcr => c'.tear
  | .mcr => if c'.loopback = c.loopback then c' else c'.tear

def readLsr (c : Chip) : UInt8 :=
  (if c.received = [] then 0 else lsrDataReady) ||| if c.queue = [] then lsrTransmitEmpty else 0

def readData (c : Chip) : UInt8 × Chip :=
  if c.dlab then (c.dll, c) else (c.received.headD 0, { c with received := c.received.tail })

/-- `while (lsr.read() & LSR_DATA_READY) == 0`, with what happens before each look at it. -/
def poll (c : Chip) : List (List Env) → Option Chip
  | [] => none
  | env :: polls =>
    let c := c.run env
    if c.readLsr &&& lsrDataReady = 0 then c.poll polls else some c

def writes (c : Chip) (env : Nat → List Env) : Nat → List (Reg × UInt8) → Chip
  | _, [] => c
  | k, (r, v) :: l => ((c.run (env k)).write v r).writes env (k + 1) l

end Chip

def bringUp : List (Reg × UInt8) :=
  [(.ier, 0), (.lcr, lcrDlab), (.data, 0x01), (.ier, 0x00), (.lcr, lcr8n1),
    (.fcr, fcrEnable ||| fcrClearRx ||| fcrClearTx ||| fcrTrigger14),
    (.mcr, mcrDtr ||| mcrRts ||| mcrOut1 ||| mcrOut2),
    (.mcr, mcrLoopback ||| mcrRts ||| mcrOut1 ||| mcrOut2), (.data, loopbackProbe)]

/-- Whether the probe came back, and the chip; none while `new` still polls. -/
def new (env : Nat → List Env) (polls : List (List Env)) (c : Chip) : Option (Bool × Chip) :=
  ((c.writes env 0 bringUp).poll polls).map fun c =>
    let (echoed, c) := (c.run (env 9)).readData
    (echoed == loopbackProbe,
      (c.run (env 10)).write (mcrDtr ||| mcrRts ||| mcrOut1 ||| mcrOut2) .mcr)

def Chip.heardDuring (c : Chip) (env : Nat → List Env) : Nat → List (Reg × UInt8) → List UInt8
  | _, [] => []
  | k, (r, v) :: l =>
    c.heardIn (env k) ++ ((c.run (env k)).write v r).heardDuring env (k + 1) l

def heardSince (c : Chip) (env : Nat → List Env) (polls : List (List Env)) : List UInt8 :=
  (c.writes env 0 (bringUp.take 6)).heardDuring env 6 (bringUp.drop 6) ++
    (c.writes env 0 bringUp).heardIn polls.flatten

structure Chip.Quiet (c : Chip) : Prop where
  sending : c.sending = none
  hearing : c.hearing = false

namespace Chip

open Registers

variable {c : Chip} {b : UInt8} {env : List Env} {polls : List (List Env)}

@[simp] theorem receive_registers (c : Chip) (b : UInt8) :
    (c.receive b).toRegisters = c.toRegisters := by
  unfold receive
  split <;> rfl

@[simp] theorem load_registers (c : Chip) : c.load.toRegisters = c.toRegisters := by
  unfold load
  split <;> rfl

@[simp] theorem load_received (c : Chip) : c.load.received = c.received := by
  unfold load
  split <;> rfl

@[simp] theorem tear_registers (c : Chip) : c.tear.toRegisters = c.toRegisters := by
  unfold tear
  split <;> rfl

@[simp] theorem tear_received (c : Chip) : c.tear.received = c.received := by
  unfold tear
  split <;> rfl

@[simp] theorem tear_queue (c : Chip) : c.tear.queue = c.queue := by
  unfold tear
  split <;> rfl

@[simp] theorem receive_queue (c : Chip) (b : UInt8) : (c.receive b).queue = c.queue := by
  unfold receive
  split <;> rfl

/-- The receiver may find a start, and both shift registers may come to the end of a byte. -/
theorem happen_cases (c : Chip) (e : Env) :
    (∃ hearing, c.happen e = { c with hearing } ∧ c.heard e = []) ∨
    (∃ b, c.happen e = { c with hearing := false }.receive b ∧ c.heard e = [b]) ∨
    (c.happen e = c.load ∧ c.heard e = []) ∨
    ∃ b, c.happen e = c.load.receive b ∧ c.heard e = [b] := by
  cases e with
  | start =>
    refine .inl ?_
    simp only [happen]
    split
    · split
      · exact ⟨true, rfl, rfl⟩
      · exact ⟨c.hearing, rfl, rfl⟩
    · exact ⟨true, rfl, rfl⟩
  | arrive b =>
    simp only [happen, heard]
    split
    · exact .inr (.inl ⟨b, rfl, rfl⟩)
    · exact .inl ⟨c.hearing, rfl, rfl⟩
  | shift =>
    simp only [happen, heard]
    split
    · exact .inr (.inr (.inr ⟨_, rfl, rfl⟩))
    · exact .inr (.inr (.inl ⟨rfl, rfl⟩))

@[simp] theorem happen_registers (c : Chip) (e : Env) :
    (c.happen e).toRegisters = c.toRegisters := by
  obtain ⟨_, h, -⟩ | ⟨_, h, -⟩ | ⟨h, -⟩ | ⟨_, h, -⟩ := c.happen_cases e
  all_goals simp [h]

@[simp] theorem run_registers (c : Chip) (env : List Env) :
    (c.run env).toRegisters = c.toRegisters := by
  induction env generalizing c with
  | nil => rfl
  | cons e env ih => exact (ih (c.happen e)).trans (happen_registers c e)

@[simp] theorem write_registers (c : Chip) (v : UInt8) (r : Reg) :
    (c.write v r).toRegisters = c.toRegisters.write v r := by
  cases r with
  | data =>
    simp only [write]
    split
    · exact tear_registers _
    · split <;> rfl
  | ier | mcr =>
    simp only [write]
    split <;> simp
  | fcr => rfl
  | lcr => exact tear_registers _

theorem writes_registers (c : Chip) (env : Nat → List Env) (k : Nat) (l : List (Reg × UInt8)) :
    (c.writes env k l).toRegisters = l.foldl (fun g a => g.write a.2 a.1) c.toRegisters := by
  induction l generalizing c k with
  | nil => rfl
  | cons a l ih => rw [writes, ih, List.foldl_cons, write_registers, run_registers]

theorem writes_append (c : Chip) (env : Nat → List Env) (k : Nat) (l l' : List (Reg × UInt8)) :
    c.writes env k (l ++ l') = (c.writes env k l).writes env (k + l.length) l' := by
  induction l generalizing c k with
  | nil => rfl
  | cons a l ih =>
    rw [List.cons_append, writes, writes, ih, List.length_cons, Nat.add_right_comm]
    rfl

theorem heardIn_append (c : Chip) (env env' : List Env) :
    c.heardIn (env ++ env') = c.heardIn env ++ (c.run env).heardIn env' := by
  induction env generalizing c with
  | nil => rfl
  | cons e env ih => rw [List.cons_append, heardIn, heardIn, ih, run_cons, List.append_assoc]

theorem head?_receive (c : Chip) (b : UInt8) :
    (c.receive b).received.head? = (c.received ++ [b]).head? := by
  unfold receive
  split
  · rfl
  · next hfull =>
    obtain ⟨x, received, hcons⟩ := List.exists_cons_of_length_pos (by omega : 0 < c.received.length)
    simp [hcons]

/-- The first byte in the queue is the first heard, however many are lost behind it. -/
theorem head?_happen (c : Chip) (e : Env) :
    (c.happen e).received.head? = (c.received ++ c.heard e).head? := by
  obtain ⟨_, h, hheard⟩ | ⟨b, h, hheard⟩ | ⟨h, hheard⟩ | ⟨b, h, hheard⟩ := c.happen_cases e
  · rw [h, hheard, List.append_nil]
  · rw [h, hheard, head?_receive]
  · rw [h, hheard, load_received, List.append_nil]
  · rw [h, hheard, head?_receive, load_received]

theorem head?_run (c : Chip) (env : List Env) :
    (c.run env).received.head? = (c.received ++ c.heardIn env).head? := by
  induction env generalizing c with
  | nil => rw [heardIn, List.append_nil, run, List.foldl_nil]
  | cons e env ih =>
    rw [run_cons, ih, List.head?_append, head?_happen, ← List.head?_append, heardIn,
      List.append_assoc]

theorem write_received (c : Chip) (v : UInt8) {r : Reg} (hr : r ≠ .fcr) :
    (c.write v r).received = c.received := by
  cases r with
  | data =>
    simp only [write]
    split
    · exact tear_received _
    · split <;> rfl
  | ier | mcr =>
    simp only [write]
    split <;> simp
  | fcr => exact absurd rfl hr
  | lcr => exact tear_received _

theorem head?_writes (c : Chip) (env : Nat → List Env) (k : Nat) {l : List (Reg × UInt8)}
    (hl : ∀ a ∈ l, a.1 ≠ .fcr) :
    (c.writes env k l).received.head? = (c.received ++ c.heardDuring env k l).head? := by
  induction l generalizing c k with
  | nil => rw [writes, heardDuring, List.append_nil]
  | cons a l ih =>
    obtain ⟨ha, hl⟩ := List.forall_mem_cons.mp hl
    rw [writes, heardDuring, ih _ _ hl, write_received _ _ ha, List.head?_append, head?_run,
      ← List.head?_append, List.append_assoc]

theorem readLsr_dataReady (c : Chip) : c.readLsr &&& lsrDataReady = 0 ↔ c.received = [] := by
  unfold readLsr
  split <;> split <;> simp_all <;> decide

theorem poll_of_none (h : (c.received ++ c.heardIn polls.flatten).head? = none) :
    c.poll polls = none := by
  induction polls generalizing c with
  | nil => rfl
  | cons env polls ih =>
    rw [List.flatten_cons, heardIn_append, ← List.append_assoc, List.head?_append, ← head?_run,
      ← List.head?_append] at h
    have hempty : (c.run env).received = [] :=
      (List.append_eq_nil_iff.mp (List.head?_eq_none_iff.mp h)).1
    rw [poll]
    simp only [(readLsr_dataReady _).mpr hempty, if_true]
    exact ih h

theorem poll_of_some (h : (c.received ++ c.heardIn polls.flatten).head? = some b)
    (hpolls : polls ≠ []) :
    ∃ c', c.poll polls = some c' ∧ c'.toRegisters = c.toRegisters ∧
      c'.received.head? = some b := by
  induction polls generalizing c with
  | nil => exact absurd rfl hpolls
  | cons env polls ih =>
    rw [List.flatten_cons, heardIn_append, ← List.append_assoc, List.head?_append, ← head?_run,
      ← List.head?_append] at h
    rw [poll]
    simp only [readLsr_dataReady]
    split
    · next hempty =>
      have hne : polls ≠ [] := by
        rintro rfl
        simp [hempty, heardIn] at h
      obtain ⟨c', hpoll, hregisters, hhead⟩ := ih h hne
      exact ⟨c', hpoll, hregisters.trans (run_registers c env), hhead⟩
    · next hsome =>
      refine ⟨c.run env, rfl, run_registers c env, ?_⟩
      rwa [List.head?_append_of_ne_nil _ hsome] at h

theorem readData_of_head? (hdlab : c.dlab = false) (hreceived : c.received.head? = some b) :
    c.readData = (b, { c with received := c.received.tail }) := by
  rw [readData, hdlab, if_neg Bool.false_ne_true, List.headD_eq_head?_getD, hreceived]
  rfl

theorem writes_flush (c : Chip) (env : Nat → List Env) :
    (c.writes env 0 (bringUp.take 6)).toRegisters =
        ⟨if c.dlab then c.ier else 0, 0x01, 0, 0xc7, lcr8n1, c.mcr⟩ ∧
      (c.writes env 0 (bringUp.take 6)).received = [] ∧
      (c.writes env 0 (bringUp.take 6)).queue = [] := by
  have hregisters := writes_registers c env 0 (bringUp.take 6)
  have hfirst : c.toRegisters.write 0 .ier =
      if c.dlab then { c.toRegisters with dlm := 0 } else { c.toRegisters with ier := 0 } := rfl
  refine ⟨?_, rfl, rfl⟩
  rw [hregisters, bringUp, List.take_succ_cons, List.foldl_cons, hfirst]
  cases c.dlab <;> simp [Registers.write, dlab_of_lcr] <;> decide

theorem writes_bringUp (c : Chip) (env : Nat → List Env) :
    (c.writes env 0 bringUp).toRegisters =
        ⟨if c.dlab then c.ier else 0, 0x01, 0, 0xc7, lcr8n1, 0x1e⟩ ∧
      (c.writes env 0 bringUp).received.head? =
        ((c.writes env 0 (bringUp.take 6)).heardDuring env 6 (bringUp.drop 6)).head? := by
  obtain ⟨hregisters, hreceived, -⟩ := writes_flush c env
  have hsplit := writes_append c env 0 (bringUp.take 6) (bringUp.drop 6)
  rw [List.take_append_drop] at hsplit
  have hdrop : ∀ a ∈ bringUp.drop 6, a.1 ≠ .fcr := by decide
  have hhead := head?_writes (c.writes env 0 (bringUp.take 6)) env 6 hdrop
  rw [hreceived, List.nil_append] at hhead
  rw [hsplit]
  refine ⟨?_, hhead⟩
  rw [writes_registers, hregisters]
  simp [bringUp, Registers.write, not_dlab_of_lcr]
  decide

theorem queue_run_of_nil (hqueue : c.queue = []) (env : List Env) : (c.run env).queue = [] := by
  have hload : c.load.queue = [] := by simp [load, hqueue]
  induction env generalizing c with
  | nil => exact hqueue
  | cons e env ih =>
    rw [run_cons]
    have hhappen : (c.happen e).queue = [] := by
      obtain ⟨_, h, -⟩ | ⟨_, h, -⟩ | ⟨h, -⟩ | ⟨_, h, -⟩ := c.happen_cases e
      all_goals simp [h, hqueue, hload]
    exact ih hhappen (by simp [load, hhappen])

theorem write_mcr_queue (c : Chip) (v : UInt8) : (c.write v .mcr).queue = c.queue := by
  simp only [write]
  split <;> simp

/-- An empty receive queue tells that nothing has been heard. -/
theorem heardIn_eq_nil (h : (c.run env).received = []) : c.heardIn env = [] ∧ c.received = [] := by
  have hhead := head?_run c env
  rw [h] at hhead
  exact (List.append_eq_nil_iff.mp (List.head?_eq_none_iff.mp hhead.symm)).symm

theorem Quiet.write_mcr (h : c.Quiet) (v : UInt8) : (c.write v .mcr).Quiet := by
  simp only [write]
  split
  · exact ⟨h.sending, h.hearing⟩
  · simp only [tear, h.sending]
    exact ⟨rfl, h.hearing⟩

theorem heardDuring_probe (f : Chip) (env : Nat → List Env) :
    f.heardDuring env 6 (bringUp.drop 6) = f.heardIn (env 6) ++
      (((f.run (env 6)).write 0x0f .mcr).heardIn (env 7) ++
        (((((f.run (env 6)).write 0x0f .mcr).run (env 7)).write 0x1e .mcr).heardIn (env 8) ++
          [])) := rfl

theorem writes_probe (c : Chip) (env : Nat → List Env) : c.writes env 0 bringUp =
    ((((((c.writes env 0 (bringUp.take 6)).run (env 6)).write 0x0f .mcr).run (env 7)).write 0x1e
      .mcr).run (env 8)).write loopbackProbe .data := rfl

theorem Quiet.happen_start (h : c.Quiet) (hloop : c.loopback = true) : c.happen .start = c := by
  simp [happen, hloop, h.sending]

theorem Quiet.happen_arrive (h : c.Quiet) (b : UInt8) : c.happen (.arrive b) = c := by
  simp [happen, h.hearing]

theorem Quiet.happen_shift (h : c.Quiet) : c.happen .shift = c.load := by
  simp [happen, h.sending]

theorem Quiet.heard (h : c.Quiet) (e : Env) : c.heard e = [] := by
  cases e <;> simp [Chip.heard, h.sending, h.hearing]

theorem Quiet.run (h : c.Quiet) (hloop : c.loopback = true) (hqueue : c.queue = [])
    (env : List Env) : c.run env = c ∧ c.heardIn env = [] := by
  have hload : c.load = c := by
    have hnone : c.load = { c with sending := none } := by simp [load, hqueue]
    rw [hnone, ← h.sending]
  induction env with
  | nil => exact ⟨rfl, rfl⟩
  | cons e env ih =>
    have hhappen : c.happen e = c := by
      cases e with
      | start => exact h.happen_start hloop
      | arrive b => exact h.happen_arrive b
      | shift => exact h.happen_shift.trans hload
    rw [run_cons, heardIn, h.heard, hhappen]
    exact ih

theorem heardIn_whole (hsending : c.sending = some (b, true)) (hhearing : c.hearing = false)
    (hloop : c.loopback = true) (hqueue : c.queue = []) (env : List Env) :
    c.heardIn env = if .shift ∈ env then [b] else [] := by
  induction env with
  | nil => rfl
  | cons e env ih =>
    rw [heardIn]
    cases e with
    | start =>
      have hhappen : c.happen .start = c := by simp [happen, hloop, hsending]
      rw [hhappen, ih]
      simp [heard]
    | arrive x =>
      have hhappen : c.happen (.arrive x) = c := by simp [happen, hhearing]
      rw [hhappen, ih]
      simp [heard, hhearing]
    | shift =>
      have hhappen : c.happen .shift = { c with sending := none }.receive b := by
        simp [happen, hsending, load, hqueue]
      have hquiet : Quiet ({ c with sending := none }.receive b) := by
        unfold receive
        split <;> exact ⟨rfl, hhearing⟩
      have hnone := (hquiet.run (by rw [receive_registers, hloop]) (by rw [receive_queue, hqueue])
        env).2
      rw [hhappen, hnone]
      simp [heard, hsending]

theorem Quiet.heardIn_next (h : c.Quiet) (hloop : c.loopback = true) (hqueue : c.queue = [b])
    (env : List Env) : c.heardIn env = if 2 ≤ env.count .shift then [b] else [] := by
  induction env with
  | nil => rfl
  | cons e env ih =>
    rw [heardIn, h.heard, List.nil_append]
    cases e with
    | start => rw [h.happen_start hloop, ih, List.count_cons_of_ne (by decide)]
    | arrive x => rw [h.happen_arrive, ih, List.count_cons_of_ne (by simp)]
    | shift =>
      have hload : c.load = { c with queue := [], sending := some (b, true) } := by
        simp [load, hqueue, hloop, h.hearing]
      have hwhole : (c.load).heardIn env = _ := heardIn_whole (b := b) (by rw [hload])
        (by rw [hload, h.hearing]) (by rw [hload, hloop]) (by rw [hload]) env
      rw [h.happen_shift, hwhole, List.count_cons_self]
      simp [← List.count_pos_iff, Nat.succ_le_iff]

theorem Quiet.heardIn_probe (h : c.Quiet) (hloop : c.loopback = true) (hdlab : c.dlab = false)
    (hqueue : c.queue = []) (env : List Env) : (c.write loopbackProbe .data).heardIn env =
      if 2 ≤ env.count .shift then [loopbackProbe] else [] := by
  have hprobe : c.write loopbackProbe .data = { c with queue := [loopbackProbe] } := by
    simp [write, Registers.write, hdlab, hqueue]
  have hquiet : (c.write loopbackProbe .data).Quiet := by
    rw [hprobe]
    exact ⟨h.sending, h.hearing⟩
  exact hquiet.heardIn_next (by rw [hprobe, hloop]) (by rw [hprobe]) env

/-- What is heard from the flush on, when nothing was under way at the switch to loopback. -/
theorem heardSince_quiet (env : Nat → List Env) (polls : List (List Env))
    (hquiet : ((c.writes env 0 (bringUp.take 7)).run (env 7)).Quiet)
    (hreceived : ((c.writes env 0 (bringUp.take 7)).run (env 7)).received = []) :
    heardSince c env polls =
      if 2 ≤ polls.flatten.count .shift then [loopbackProbe] else [] := by
  obtain ⟨hregisters, -, hqueue⟩ := c.writes_flush env
  have hwrites : c.writes env 0 (bringUp.take 7) =
    ((c.writes env 0 (bringUp.take 6)).run (env 6)).write 0x0f .mcr := rfl
  rw [hwrites] at hquiet hreceived
  rw [heardSince, heardDuring_probe, writes_probe]
  generalize c.writes env 0 (bringUp.take 6) = f at hregisters hqueue hquiet hreceived ⊢
  have hregisters₇ : (((f.run (env 6)).write 0x0f .mcr).run (env 7)).toRegisters =
      { f.toRegisters with mcr := 0x0f } := by
    rw [run_registers, write_registers, run_registers]
    rfl
  have hqueue₇ := queue_run_of_nil (c := (f.run (env 6)).write 0x0f .mcr)
    ((write_mcr_queue _ _).trans (queue_run_of_nil hqueue (env 6))) (env 7)
  obtain ⟨hheard₇, hreceived₆⟩ := heardIn_eq_nil hreceived
  rw [write_received _ _ (by decide)] at hreceived₆
  rw [(heardIn_eq_nil hreceived₆).1, hheard₇]
  generalize ((f.run (env 6)).write 0x0f .mcr).run (env 7) = d at hquiet hregisters₇ hqueue₇ ⊢
  have hquiet₈ := hquiet.write_mcr 0x1e
  have hregisters₈ : (d.write 0x1e .mcr).toRegisters = { f.toRegisters with mcr := 0x1e } := by
    rw [write_registers, hregisters₇]
    rfl
  have hloop : (d.write 0x1e .mcr).loopback = true := by
    rw [hregisters₈]
    exact loopback_of_mcr rfl
  have hdlab : (d.write 0x1e .mcr).dlab = false := by
    rw [hregisters₈, hregisters]
    exact not_dlab_of_lcr rfl
  have hqueue₈ := (write_mcr_queue d 0x1e).trans hqueue₇
  obtain ⟨hrun, hnone⟩ := hquiet₈.run hloop hqueue₈ (env 8)
  rw [hnone, hrun]
  exact hquiet₈.heardIn_probe hloop hdlab hqueue₈ polls.flatten

end Chip

/-- From any state of the chip, `new` returns once a byte has been heard since the flush, and takes
the chip for absent exactly if the first such byte is not the probe's; with both shift registers
idle at the switch to loopback, and nothing heard before it, that byte is the probe's.  It leaves
on the interrupts that it finds behind `DLAB`. -/
theorem new_finds_chip (c : Chip) (env : Nat → List Env) (polls : List (List Env)) :
    (new env polls c).map (fun r => (r.1, r.2.toRegisters)) =
        (if polls = [] then none else (heardSince c env polls).head?).map (fun b =>
          (b == loopbackProbe, ⟨if c.dlab then c.ier else 0, 0x01, 0, 0xc7, lcr8n1, 0x0f⟩)) ∧
      (((c.writes env 0 (bringUp.take 7)).run (env 7)).Quiet →
        ((c.writes env 0 (bringUp.take 7)).run (env 7)).received = [] →
        heardSince c env polls =
          if 2 ≤ polls.flatten.count .shift then [loopbackProbe] else []) := by
  refine ⟨?_, c.heardSince_quiet env polls⟩
  obtain ⟨hregisters, hhead⟩ := c.writes_bringUp env
  rw [new, heardSince]
  generalize c.writes env 0 bringUp = d at hregisters hhead ⊢
  rw [List.head?_append, ← hhead, ← List.head?_append]
  cases hheard : (d.received ++ d.heardIn polls.flatten).head? with
  | none =>
    rw [Chip.poll_of_none hheard, ite_self]
    rfl
  | some b =>
    by_cases hpolls : polls = []
    · rw [if_pos hpolls, hpolls]
      rfl
    · rw [if_neg hpolls]
      obtain ⟨e, hpoll, hregisters', hhead'⟩ := Chip.poll_of_some hheard hpolls
      rw [hpoll, Option.map_some, Option.map_some]
      have hread : (e.run (env 9)).received.head? = some b := by
        rw [Chip.head?_run, List.head?_append, hhead']
        rfl
      have hregisters₉ := ((e.run_registers (env 9)).trans hregisters').trans hregisters
      generalize e.run (env 9) = e at hread hregisters₉ ⊢
      have hdlab : e.dlab = false :=
        Registers.not_dlab_of_lcr (congrArg Registers.lcr hregisters₉)
      rw [Chip.readData_of_head? hdlab hread, Option.map_some]
      simp only [Chip.write_registers, Chip.run_registers, hregisters₉]
      rfl

theorem new_finds_chip_reset :
    (new (fun _ => []) [[], [.shift, .shift]] ⟨⟨0, 0, 0, 0, 0, 0⟩, [], [], none, false⟩).map
      (fun r => (r.1, r.2.toRegisters)) = some (true, ⟨0, 0x01, 0, 0xc7, lcr8n1, 0x0f⟩) := by
  obtain ⟨hnew, hquiet⟩ := new_finds_chip ⟨⟨0, 0, 0, 0, 0, 0⟩, [], [], none, false⟩ (fun _ => [])
    [[], [.shift, .shift]]
  rw [hnew, hquiet ⟨rfl, rfl⟩ rfl]
  rfl

end FerricK.Serial
