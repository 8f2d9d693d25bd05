import FerricK.Time.Board
import FerricK.Time.Uptime
import Mathlib.Data.List.Find

/-! What the controllers deliver, from any state that the firmware has left them in, and what
becomes of each period of the timer. -/

namespace FerricK.Pit

variable {s s' : State} {b : Board} {w : TimerWrite} {rest : List TimerWrite} {n : Nat}

def stopped (low : Option (BitVec 8)) : I8254 := ⟨⟨3, 3, false, low, none⟩, none, true⟩

structure Booting (s : State) (rest : List TimerWrite) : Prop where
  suffix : rest <:+ initWrites
  settled : rest.foldl Settings.perform s.board.settings = ready
  low : rest.length = 2 → s.board.counter = stopped none
  high : rest.length = 1 → s.board.counter = stopped (some timerDivisor.toUInt8.toBitVec)
  time : s.time = .new

def Main.settings : Main → Settings
  | .accepted | .ending (_ :: _) => serving
  | _ => ready

inductive Main.Started : Main → Prop
  | starting : Started (.starting [])
  | running {enabled : Bool} : Started (.running enabled)
  | recognized : Started .recognized
  | accepted : Started .accepted
  | handled : Started (.ending handlerWrites)
  | ended : Started (.ending [])
  | faulted : Started (.faulted 0x27)

structure Counting (s : State) : Prop where
  settings : s.board.settings = s.main.settings
  counter : s.board.counter.At timerDivisor.toNat s.clocks
  line : s.board.master.lines.getLsbD 0 = s.board.counter.out
  high : s.latched = true → s.board.counter.out = true
  slave : s.board.master.irr.getLsbD 2 = false
  ticks : ∃ k, s.time.ticks = .ofNat k ∧
    k + s.latched.toNat + (s.main == .accepted).toNat + s.missed =
      I8254.rises timerDivisor.toNat s.clocks + s.early.toNat

inductive Inv (s : State) : Prop
  | booting {w : TimerWrite} {rest : List TimerWrite} : s.main = .starting (w :: rest) →
      Booting s (w :: rest) → Inv s
  | started : s.main.Started → Counting s → Inv s

theorem Main.slave_settings (m : Main) : m.settings.slave = ready.slave := by
  unfold settings
  split <;> rfl

theorem Main.counter_settings (m : Main) : m.settings.counter = ready.counter := by
  unfold settings
  split <;> rfl

/-- Of the requests the timer's comes first, and the slave's is the only other one not masked. -/
theorem pending_ready {p : I8259} (h : p.toControl = ready.master) : p.pending =
    if p.irr.getLsbD 0 then some 0 else if p.irr.getLsbD 2 then some 2 else none := by
  obtain ⟨control, lines, irr⟩ := p
  obtain rfl : control = ready.master := h
  have horder : (I8259.order ready.master.lowest).takeWhile (fun n => !ready.master.holds n) =
      [0, 1, 2, 3, 4, 5, 6, 7] := by decide
  have hmask : ∀ n ∈ [0, 1, 2, 3, 4, 5, 6, 7],
      (!ready.master.imr.getLsbD n) = decide (n = 0 ∨ n = 2) := by decide
  have hrequests : ∀ n ∈ [0, 1, 2, 3, 4, 5, 6, 7],
      I8259.requests ⟨ready.master, lines, irr⟩ n = (decide (n = 0 ∨ n = 2) && irr.getLsbD n) := by
    intro n hn
    have hedge : ready.master.icw1.getLsbD 3 = false := rfl
    rw [Bool.and_comm, ← hmask n hn, I8259.requests]
    simp only [hedge, Bool.false_eq_true, if_false]
  rw [I8259.pending, horder, List.find?_congr hrequests]
  cases hzero : irr.getLsbD 0 <;> cases htwo : irr.getLsbD 2 <;>
    simp only [List.find?, hzero, htwo] <;> rfl

theorem latched_change : (s.change b).latched =
    (b.counter.out && (b.master.irr.getLsbD 0 || !b.master.lines.getLsbD 0)) := b.wire_irr_zero

theorem high_change (h : (s.change b).latched = true) : (s.change b).board.counter.out = true := by
  rw [latched_change, Bool.and_eq_true] at h
  exact h.1

namespace Counting

theorem masked (h : Counting s) : s.board.slave.imr = 0xFF := by
  have hslave : s.board.slave.toControl = ready.slave :=
    (congrArg Settings.slave h.settings).trans s.main.slave_settings
  rw [hslave]
  rfl

theorem square (h : Counting s) : s.board.counter.Square := by
  have hcounter : s.board.counter.toControl = ready.counter :=
    (congrArg Settings.counter h.settings).trans s.main.counter_settings
  rw [hcounter]
  decide

theorem change (h : Counting s) (hsettings : b.settings = s.board.settings)
    (hcounter : b.counter = s.board.counter)
    (hzero : b.master.irr.getLsbD 0 = s.board.master.irr.getLsbD 0)
    (hline : b.master.lines.getLsbD 0 = s.board.master.lines.getLsbD 0) :
    Counting (s.change b) := by
  have hslave : b.slave.imr = s.board.slave.imr :=
    congrArg (fun g : Settings => g.slave.imr) hsettings
  have hlatched : (s.change b).latched = s.latched := by
    have hhigh := h.high
    rw [latched_change, hzero, hline, h.line, hcounter]
    change (_ && (s.latched || _)) = s.latched
    cases hl : s.latched with
    | false => rw [Bool.false_or, Bool.and_not_self]
    | true => rw [hhigh hl]; rfl
  constructor
  · exact hsettings.trans h.settings
  · change b.counter.At _ _
    rw [hcounter]
    exact h.counter
  · exact b.wire_line
  · exact high_change
  · exact Board.wire_irr_two (hslave.trans h.masked)
  · rw [hlatched]
    exact h.ticks

theorem clock (h : Counting s) (out : Bool) : Counting (s.clock out) := by
  have hclock : (s.board.clock out).counter = s.board.counter.clock := if_pos h.square
  constructor
  · exact (s.board.clock_settings out).trans h.settings
  · change (s.board.clock out).counter.At _ _
    rw [hclock]
    exact h.counter.clock
  · exact (s.board.clock out).wire_line
  · exact high_change (s := s)
  · exact Board.wire_irr_two h.masked
  · obtain ⟨k, hticks, hk⟩ := h.ticks
    refine ⟨k, hticks, ?_⟩
    have hlatched : (s.clock out).latched =
        (s.board.counter.clock.out && (s.latched || !s.board.counter.out)) := by
      rw [← h.line, ← hclock]
      exact latched_change (s := s)
    have hmissed : (s.clock out).missed =
        s.missed + ((s.board.counter.out && !s.board.counter.clock.out) && s.latched).toNat := by
      rw [← hclock]
      rfl
    have hrises := h.counter.rises_clock (by decide)
    rw [hlatched, hmissed]
    change k + _ + (s.main == .accepted).toNat + _ = I8254.rises _ (s.clocks + 1) + s.early.toNat
    rw [hrises]
    -- a rise leaves a request, and a fall takes one away
    have hedge : ∀ l o o' : Bool, (l = true → o = true) →
        (o' && (l || !o)).toNat + ((o && !o') && l).toNat = l.toNat + (o' && !o).toNat := by decide
    have := hedge s.latched s.board.counter.out s.board.counter.clock.out h.high
    omega

theorem move (h : Counting s) {m : Main} (hsettings : m.settings = s.main.settings)
    (haccepted : (m == .accepted) = (s.main == .accepted)) : Counting { s with main := m } where
  settings := h.settings.trans hsettings.symm
  counter := h.counter
  line := h.line
  high := h.high
  slave := h.slave
  ticks := by
    obtain ⟨k, hticks, hk⟩ := h.ticks
    rw [← haccepted] at hk
    exact ⟨k, hticks, hk⟩

theorem bump (h : Counting s) (hmain : s.main = .accepted) : Counting { s with
    time := (handleTimerIrq ⟨s.time, 0, 0, []⟩).time
    main := .ending handlerWrites } := by
  constructor
  · have hsettings := h.settings
    rw [hmain] at hsettings
    exact hsettings
  · exact h.counter
  · exact h.line
  · exact h.high
  · exact h.slave
  · obtain ⟨k, hticks, hk⟩ := h.ticks
    refine ⟨k + 1, ?_, ?_⟩
    · change s.time.ticks + 1 = _
      rw [hticks, UInt64.ofNat_add]
      rfl
    · rw [hmain] at hk
      rw [← hk]
      change k + 1 + s.latched.toNat + 0 + s.missed = k + s.latched.toNat + 1 + s.missed
      omega

/-- The end of the interrupt: a command that is no initialization word keeps the requests. -/
theorem finish (h : Counting s) (hmain : s.main = .ending handlerWrites) : Counting
    { s.change (s.board.perform (.out pic1Cmd picEoi)) with main := .ending [] } := by
  have hsettings := h.settings
  rw [hmain] at hsettings
  have hboard : Counting (s.change s.board) := h.change rfl rfl rfl rfl
  constructor
  · change (s.board.perform _).settings = ready
    rw [Board.perform_settings, hsettings]
    exact handlerWrites_ready
  · exact h.counter
  · exact hboard.line
  · exact hboard.high
  · exact hboard.slave
  · obtain ⟨k, hticks, hk⟩ := hboard.ticks
    change k + _ + (s.main == .accepted).toNat + _ = _ at hk
    rw [hmain] at hk
    exact ⟨k, hticks, hk⟩

theorem take (h : Counting s) (hmain : s.main = .recognized) (hlatched : s.latched = true) :
    Counting { s.change (s.board.take 0) with main := .accepted } := by
  have hready := h.settings
  rw [hmain] at hready
  constructor
  · change Settings.mk (s.board.master.serve 0) s.board.slave.toControl _ = serving
    rw [serving, ← show s.board.settings = ready from hready]
    rfl
  · exact h.counter
  · exact Board.wire_line _
  · exact high_change (s := s)
  · exact Board.wire_irr_two (b := s.board.take 0) h.masked
  · obtain ⟨k, hticks, hk⟩ := h.ticks
    refine ⟨k, hticks, ?_⟩
    have htaken : (s.change (s.board.take 0)).latched = false := by
      rw [latched_change, Board.take, I8259.take_irr (by decide), I8259.take_lines, h.line]
      simp
    rw [hmain, hlatched] at hk
    change k + (s.change (s.board.take 0)).latched.toNat + 1 + s.missed =
      I8254.rises timerDivisor.toNat s.clocks + s.early.toNat
    rw [htaken]
    exact hk

/-- The master asks exactly as long as a tick is latched. -/
theorem pending_isSome (h : Counting s) (hready : s.main.settings = ready) :
    s.board.master.pending = if s.latched then some 0 else none := by
  have hsettings := h.settings.trans hready
  rw [pending_ready (congrArg Settings.master hsettings), h.slave]
  rfl

theorem acknowledge_eq (h : Counting s) (hmain : s.main = .recognized) : s.acknowledge = some
    (if s.latched then { s.change (s.board.take 0) with main := .accepted }
    else { s.change s.board with main := .faulted 0x27 }) := by
  have hready := h.settings
  rw [hmain] at hready
  have hmaster : s.board.master.toControl = ready.master := congrArg Settings.master hready
  rw [State.acknowledge, if_pos hmain, I8259.acknowledge, h.pending_isSome (by rw [hmain]; rfl)]
  cases s.latched with
  | true =>
    simp only [if_true, hmaster]
    rfl
  | false =>
    simp only [Bool.false_eq_true, if_false, hmaster]
    rfl

theorem acknowledge (h : Counting s) (hack : s.acknowledge = some s') :
    s'.main.Started ∧ Counting s' := by
  have hmain : s.main = .recognized := by
    by_contra hmain
    rw [State.acknowledge, if_neg hmain] at hack
    cases hack
  rw [h.acknowledge_eq hmain, Option.some.injEq] at hack
  subst hack
  split
  case isTrue hlatched => exact ⟨.accepted, h.take hmain hlatched⟩
  case isFalse hlatched =>
    have hboard : Counting (s.change s.board) := h.change rfl rfl rfl rfl
    exact ⟨.faulted, hboard.move (by rw [show (s.change s.board).main = _ from hmain]; rfl)
      (by rw [show (s.change s.board).main = _ from hmain]; rfl)⟩

end Counting

namespace Booting

theorem change (h : Booting s rest) (hsettings : b.settings = s.board.settings)
    (hcounter : ∀ low, s.board.counter = stopped low → b.counter = stopped low) :
    Booting (s.change b) rest where
  suffix := h.suffix
  settled := by
    change rest.foldl Settings.perform b.settings = ready
    rw [hsettings]
    exact h.settled
  low hrest := hcounter _ (h.low hrest)
  high hrest := hcounter _ (h.high hrest)
  time := h.time

theorem clock (h : Booting s rest) (out : Bool) : Booting (s.clock out) rest := by
  have hchange : Booting (s.change (s.board.clock out)) rest := by
    refine h.change (s.board.clock_settings out) fun low hlow => ?_
    -- without a count to load the output rests
    have hsquare : s.board.counter.Square := by
      rw [hlow]
      rfl
    change (if s.board.counter.Square then _ else _) = _
    rw [if_pos hsquare, hlow]
    rfl
  exact ⟨hchange.suffix, hchange.settled, hchange.low, hchange.high, hchange.time⟩

theorem eq_drop (h : Booting s (w :: rest)) : w :: rest = initWrites.drop (12 - rest.length) := by
  have hdrop := List.suffix_iff_eq_drop.mp h.suffix
  rwa [List.length_cons, show initWrites.length = 13 from rfl, Nat.succ_sub_succ] at hdrop

theorem head_eq (h : Booting s (w :: rest)) {k : Nat} (hk : rest.length = k) :
    initWrites[12 - k]? = some w := by
  have hdrop := h.eq_drop
  rw [hk] at hdrop
  rw [← List.head?_drop, ← hdrop]
  rfl

theorem write {w' : TimerWrite} (h : Booting s (w :: w' :: rest)) (hwrite : s.write = some s')
    (hmain : s.main = .starting (w :: w' :: rest)) :
    s'.main = .starting (w' :: rest) ∧ Booting s' (w' :: rest) := by
  simp only [State.write, hmain, Option.some.injEq] at hwrite
  subst hwrite
  refine ⟨rfl, ?_⟩
  constructor
  · exact (List.suffix_cons _ _).trans h.suffix
  · change List.foldl Settings.perform (s.board.perform w).settings (w' :: rest) = ready
    rw [Board.perform_settings]
    exact h.settled
  · intro hrest
    obtain rfl : TimerWrite.out 0x43 cmdMode3 = w := Option.some.inj (h.head_eq hrest)
    rfl
  · intro hrest
    obtain rfl : TimerWrite.out 0x40 timerDivisor.toUInt8 = w := Option.some.inj (h.head_eq hrest)
    change s.board.counter.data _ = _
    rw [h.low (congrArg Nat.succ hrest)]
    rfl
  · exact h.time

theorem write_last (h : Booting s [w]) (hwrite : s.write = some s')
    (hmain : s.main = .starting [w]) : s'.main = .starting [] ∧ Counting s' := by
  simp only [State.write, hmain, Option.some.injEq] at hwrite
  subst hwrite
  refine ⟨rfl, ?_⟩
  have hsettled : (s.board.perform w).settings = ready := by
    rw [Board.perform_settings]
    exact h.settled
  constructor
  · exact hsettled
  · obtain rfl : TimerWrite.out 0x40 (timerDivisor >>> 8).toUInt8 = w :=
      Option.some.inj (h.head_eq rfl)
    change I8254.At (s.board.counter.data _) _ 0
    rw [h.high rfl]
    exact ⟨rfl, rfl, rfl⟩
  · exact Board.wire_line _
  · exact high_change (s := s)
  · refine Board.wire_irr_two (b := s.board.perform w) ?_
    exact congrArg (fun g : Settings => g.slave.imr) hsettled
  · have hstart (l : Bool) :
        0 + l.toNat + 0 + 0 = I8254.rises timerDivisor.toNat 0 + l.toNat := by
      rw [I8254.rises, Nat.zero_sub, Nat.zero_div, Nat.add_zero]
    exact ⟨0, congrArg Time.ticks h.time, hstart _⟩

end Booting

theorem line_cases {ofSlave level : Bool} (h : s.line ofSlave n level = some s') :
    ∃ b : Board, s' = s.change b ∧ b.settings = s.board.settings ∧ b.counter = s.board.counter ∧
      b.master.irr.getLsbD 0 = s.board.master.irr.getLsbD 0 ∧
      b.master.lines.getLsbD 0 = s.board.master.lines.getLsbD 0 := by
  unfold State.line at h
  split_ifs at h with hslave hn
  · cases h
    exact ⟨_, rfl, rfl, rfl, rfl, rfl⟩
  · cases h
    exact ⟨_, rfl, rfl, rfl, I8259.setLine_irr_of_ne (by decide) hn.1 level,
      I8259.setLine_lines_of_ne (by decide) hn.1 level⟩

theorem Booting.act {a : Action} (h : Booting s (w :: rest))
    (hmain : s.main = .starting (w :: rest)) (hact : s.act a = some s') : Inv s' := by
  cases a with
  | line ofSlave n level =>
    obtain ⟨b, rfl, hsettings, hcounter, -, -⟩ := line_cases hact
    exact .booting hmain (h.change hsettings fun _ => hcounter.trans)
  | clock out =>
    cases hact
    exact .booting hmain (h.clock out)
  | write =>
    cases rest with
    | nil =>
      obtain ⟨hmain', hcounting⟩ := h.write_last hact hmain
      exact .started (hmain' ▸ .starting) hcounting
    | cons w' rest =>
      obtain ⟨hmain', hbooting⟩ := h.write hact hmain
      exact .booting hmain' hbooting
  | _ => simp [State.act, State.recognize, State.acknowledge, hmain] at hact

theorem Counting.act {a : Action} (h : Counting s) (hstarted : s.main.Started)
    (hact : s.act a = some s') : s'.main.Started ∧ Counting s' := by
  cases a with
  | line ofSlave n level =>
    obtain ⟨b, rfl, hsettings, hcounter, hzero, hline⟩ := line_cases hact
    exact ⟨hstarted, h.change hsettings hcounter hzero hline⟩
  | clock out =>
    cases hact
    exact ⟨hstarted, h.clock out⟩
  | write =>
    generalize hmain : s.main = main at hstarted
    simp only [State.act, State.write, hmain] at hact
    cases hstarted with
    | handled =>
      cases hact
      exact ⟨.ended, h.finish hmain⟩
    | _ => cases hact
  | acknowledge => exact h.acknowledge hact
  | recognize =>
    simp only [State.act, State.recognize] at hact
    split_ifs at hact with hmain
    cases hact
    exact ⟨.recognized, h.move (hmain.1 ▸ rfl) (hmain.1 ▸ rfl)⟩
  | started =>
    simp only [State.act] at hact
    split_ifs at hact with hmain
    cases hact
    exact ⟨.running, h.move (hmain ▸ rfl) (hmain ▸ rfl)⟩
  | setInterrupts enabled =>
    simp only [State.act] at hact
    split at hact
    · rename_i hmain
      cases hact
      exact ⟨.running, h.move (hmain ▸ rfl) (hmain ▸ rfl)⟩
    · cases hact
  | bump =>
    simp only [State.act] at hact
    split_ifs at hact with hmain
    cases hact
    exact ⟨.handled, h.bump hmain⟩
  | finish =>
    simp only [State.act] at hact
    split_ifs at hact with hmain
    cases hact
    exact ⟨.running, h.move (hmain ▸ rfl) (hmain ▸ rfl)⟩

theorem invariant : ticking.Invariant Inv where
  init := by
    rintro s ⟨⟨b, hb⟩, htime, hmain⟩
    refine .booting hmain ⟨List.suffix_rfl, initWrites_ready _, ?_, ?_, htime⟩
    · exact fun h => absurd h (by decide)
    · exact fun h => absurd h (by decide)
  step inv h := by
    obtain ⟨a, hact⟩ := h
    cases inv with
    | booting hmain hbooting => exact hbooting.act hmain hact
    | started hstarted hcounting =>
      obtain ⟨hstarted', hcounting'⟩ := hcounting.act hstarted hact
      exact .started hstarted' hcounting'

theorem Inv.counting (inv : Inv s) (hstarted : s.main.Started) : Counting s := by
  cases inv with
  | booting hmain => rw [hmain] at hstarted; cases hstarted
  | started _ hcounting => exact hcounting

structure Delivers (s : State) : Prop where
  recognize : s.main = .running true → s.recognize.isSome = s.latched
  acknowledge : s.main = .recognized → s.acknowledge.map State.main =
    some (if s.latched then .accepted else .faulted 0x27)
  faulted : ∀ vector, s.main = .faulted vector → vector = 0x27
  high : s.main.Started → s.latched = true → s.board.counter.out = true

/-- The processor sees the tick that is latched, and nothing else; it gets the timer's vector if
that tick is still latched when it acknowledges it, and the master's default otherwise, which has no
gate. -/
theorem delivers (h : ticking.Reachable s) : Delivers s := by
  have inv := invariant.reachable h
  constructor
  · intro hmain
    have hcounting : Counting s := inv.counting (hmain ▸ .running)
    rw [State.recognize, hcounting.pending_isSome (by rw [hmain]; rfl)]
    cases s.latched with
    | true => rw [if_pos ⟨hmain, rfl⟩]; rfl
    | false => rw [if_neg fun h => absurd h.2 Bool.false_ne_true]; rfl
  · intro hmain
    rw [(inv.counting (hmain ▸ .recognized)).acknowledge_eq hmain]
    cases s.latched <;> rfl
  · intro vector hmain
    cases inv with
    | booting hmain' => rw [hmain'] at hmain; cases hmain
    | started hstarted hcounting =>
      rw [hmain] at hstarted
      cases hstarted
      rfl
  · exact fun hstarted => (inv.counting hstarted).high

def firmware : Board where
  master := ⟨⟨0x01, 0xB8, 0x11, 0x08, 0x04, 0x01, .mask, 7, false⟩, 0x02, 0x02⟩
  slave := ⟨⟨0x00, 0x8F, 0x11, 0x70, 0x02, 0x01, .mask, 7, false⟩, 0x00, 0x00⟩
  counter := ⟨⟨3, 3, false, none, some 65536⟩, some 40000, false⟩

def State.boot (b : Board) : State := ⟨b.wire, .new, .starting initWrites, 0, false, 0⟩

def seeing : List Action :=
  List.replicate 13 .write ++ [.started, .setInterrupts true, .recognize]

theorem reachable_run {l : List Action} (hrun : l.foldlM State.act (.boot b) = some s) :
    ticking.Reachable s :=
  .schedule (fun _ a _ h => ⟨a, h⟩) (.init ⟨⟨b, rfl⟩, rfl, rfl⟩) hrun

theorem exists_seen (n : Nat) :
    ∃ s, ticking.Reachable s ∧ s.main = .recognized ∧ s.clocks = n := by
  induction n with
  | zero =>
    have hrun : (seeing.foldlM State.act (.boot firmware)).map (fun s => (s.main, s.clocks)) =
        some (.recognized, 0) := by decide
    obtain ⟨s, hs, heq⟩ := Option.map_eq_some_iff.mp hrun
    obtain ⟨hmain, hclocks⟩ := Prod.mk.inj heq
    exact ⟨s, reachable_run hs, hmain, hclocks⟩
  | succ n ih =>
    obtain ⟨s, hs, hmain, hclocks⟩ := ih
    exact ⟨s.clock false, hs.steps ((System.Steps.refl s).tail ⟨.clock false, rfl⟩), hmain,
      congrArg Nat.succ hclocks⟩

theorem delivers_late : ∃ s s' : State, s.main = .recognized ∧ s.acknowledge = some s' ∧
    s'.main = .faulted 0x27 ∧ Delivers s' := by
  obtain ⟨s, hs, hmain, hclocks⟩ := exists_seen 598
  have hcounting := (invariant.reachable hs).counting (hmain ▸ .recognized)
  have hlatched : s.latched = false := by
    by_contra hlatched
    have hhigh := hcounting.high (Bool.eq_true_of_not_eq_false hlatched)
    rw [hcounting.counter.out, hclocks] at hhigh
    exact absurd hhigh (by decide)
  have hack := hcounting.acknowledge_eq hmain
  rw [hlatched] at hack
  have hs' := hs.steps ((System.Steps.refl s).tail ⟨.acknowledge, hack⟩)
  exact ⟨s, _, hmain, hack, rfl, delivers hs'⟩

/-- The oscillator's clocks are the ticks counted, the one being delivered or latched, and the ones
missed because the output fell before they were acknowledged; and what the driver makes of the
ticks is the time of the clocks, but for three periods and the missed ones. -/
theorem uptime_of_clocks (h : ticking.Reachable s) (hstarted : s.main.Started)
    (hfits : (s.clocks + 1193) * 10 ^ 9 < 2 ^ 64 * 1193182) :
    ∃ ticks ns, s.time.ticks = .ofNat ticks ∧
      ticks + (s.main == .accepted).toNat + s.latched.toNat + s.missed =
        (s.clocks - 1) / 1193 + s.early.toNat ∧
      pitTicksToNs s.time.ticks = .ok ns ∧
      ns.toNat * 1193182 ≤ (s.clocks + 1193 * s.early.toNat) * 10 ^ 9 ∧
      s.clocks * 10 ^ 9 < (ns.toNat + 1) * 1193182 + (s.missed + 3) * 1193 * 10 ^ 9 := by
  obtain ⟨k, hticks, hk⟩ := ((invariant.reachable h).counting hstarted).ticks
  have hrises : I8254.rises timerDivisor.toNat s.clocks = (s.clocks - 1) / 1193 := rfl
  have hearly := s.early.toNat_le
  have hlatched := s.latched.toNat_le
  have haccepted := (s.main == .accepted).toNat_le
  rw [hrises] at hk
  have hlt : k < 2 ^ 64 := by omega
  have htoNat : s.time.ticks.toNat = k := by
    rw [hticks]
    exact UInt64.toNat_ofNat_of_lt' hlt
  have hfitsNs : k * 10 ^ 9 * 1193 / 1193182 < 2 ^ 64 := by omega
  have hns : (UInt64.ofNat (k * 10 ^ 9 * 1193 / 1193182)).toNat = k * 10 ^ 9 * 1193 / 1193182 :=
    UInt64.toNat_ofNat_of_lt' hfitsNs
  refine ⟨k, _, hticks, by omega, Time.pitTicksToNs_eq _, ?_⟩
  rw [htoNat, hns]
  omega

def rising : List Action :=
  List.replicate 13 .write ++ [.started, .clock false, .setInterrupts true, .recognize,
    .acknowledge, .bump, .clock false, .write, .finish]

theorem uptime_of_clocks_rising : ∃ s,
    rising.foldlM State.act (.boot firmware) = some s ∧ s.clocks = 2 ∧
    ∃ ticks ns, s.time.ticks = .ofNat ticks ∧
      ticks + (s.main == .accepted).toNat + s.latched.toNat + s.missed =
        (s.clocks - 1) / 1193 + s.early.toNat ∧
      pitTicksToNs s.time.ticks = .ok ns ∧
      ns.toNat * 1193182 ≤ (s.clocks + 1193 * s.early.toNat) * 10 ^ 9 ∧
      s.clocks * 10 ^ 9 < (ns.toNat + 1) * 1193182 + (s.missed + 3) * 1193 * 10 ^ 9 := by
  have hrun : (rising.foldlM State.act (.boot firmware)).map
      (fun s => (s.main, s.clocks)) = some (.running true, 2) := by decide
  obtain ⟨s, hs, heq⟩ := Option.map_eq_some_iff.mp hrun
  obtain ⟨hmain, hclocks⟩ := Prod.mk.inj heq
  exact ⟨s, hs, hclocks, uptime_of_clocks (reachable_run hs) (hmain ▸ .running)
    (by rw [hclocks]; decide)⟩

end FerricK.Pit
