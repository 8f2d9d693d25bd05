import FerricK.Lib.Gic
import FerricK.Lib.System
import FerricK.Time.Drivers

namespace FerricK.Gictimer

open Gic (intid)

/-- What the processor is at: the rest of `init`, the kernel with its interrupts enabled or not, and
the handler before its acknowledgement and after it. -/
inductive Main
  | starting (rest : List TimerWrite)
  | running (enabled : Bool)
  | entered
  | handling (rest : List TimerWrite)

/-- `lines` are the interrupts of the other devices, and `acks` the counts at which the timer's was
acknowledged, the last one first. -/
structure State where
  gic : Gic
  timer : GenericTimer
  lines : Nat → Bool
  freqHz : UInt64
  main : Main
  acks : List Nat

def State.waiting (s : State) (n : Nat) : Bool :=
  if n = irqCntpnsirq.toNat then s.timer.fires else s.lines n

/-- A set-enable register leaves the interrupts of its zeros as they are. -/
def State.perform (s : State) : TimerWrite → State
  | .gicd offset v =>
    if offset = gicdCtlr then { s with gic := { s.gic with forwards := v.toBitVec } }
    else if offset = gicdIsenabler0 then
      { s with
        gic := { s.gic with enabled := fun n => s.gic.enabled n || v.toBitVec.getLsbD n } }
    else s
  | .gicc offset v =>
    if offset = giccCtlr then { s with gic := { s.gic with signals := v.toBitVec } }
    else if offset = giccPmr then { s with gic := { s.gic with mask := (v &&& 0xFF).toNat } }
    else if offset = giccEoir then { s with gic := s.gic.finish v.toBitVec }
    else s
  | .cntpTval v => { s with timer := s.timer.setValue v.toBitVec }
  | .cntpCtl v => { s with timer := s.timer.setControl v.toBitVec }
  | .out _ _ => s

def initWrites (cntfrq ctl : UInt64) : List TimerWrite := (init cntfrq ⟨.new, 0, ctl, []⟩).writes

def State.handlerWrites (s : State) (value : BitVec 32) : List TimerWrite :=
  (handleTimerIrq (.ofBitVec value) ⟨.new, s.freqHz, .ofBitVec s.timer.control, []⟩).writes

inductive Step (s : State) : State → Prop
  | pass : Step s { s with timer := { s.timer with count := s.timer.count + 1 } }
  | line (n : Nat) (level : Bool) : Step s { s with lines := Function.update s.lines n level }
  | boot {w : TimerWrite} {rest : List TimerWrite} : s.main = .starting (w :: rest) →
      Step s { s.perform w with main := .starting rest }
  | started : s.main = .starting [] → Step s { s with main := .running false }
  | setInterrupts {enabled : Bool} (enabled' : Bool) : s.main = .running enabled →
      Step s { s with main := .running enabled' }
  | enter {n : Nat} : s.main = .running true → s.gic.Asks s.waiting n →
      Step s { s with main := .entered }
  | acknowledge {value : BitVec 32} {gic : Gic} : s.main = .entered →
      s.gic.Acknowledge s.waiting value gic → Step s { s with
        gic := gic
        main := .handling (s.handlerWrites value)
        acks :=
          if intid value = irqCntpnsirq.toNat then s.timer.count :: s.acks else s.acks }
  | handle {w : TimerWrite} {rest : List TimerWrite} : s.main = .handling (w :: rest) →
      Step s { s.perform w with main := .handling rest }
  | finish : s.main = .handling [] → Step s { s with main := .running true }

/-- No interrupt is in service, and the timer's is in one of the two groups and not of the lowest
priority, as a reset leaves it. -/
def ticking (cntfrq : UInt64) : System State where
  init s := s.main = .starting (initWrites cntfrq (.ofBitVec s.timer.control)) ∧
    s.freqHz = max cntfrq 1 ∧ s.acks = [] ∧ (∀ n, s.gic.active n = false) ∧
    s.gic.group irqCntpnsirq.toNat < 2 ∧ s.gic.priority irqCntpnsirq.toNat < 0xFF
  step := Step

def State.period (s : State) : UInt64 := s.freqHz / periodDivisor

def Main.rest : Main → List TimerWrite
  | .starting rest | .handling rest => rest
  | .running _ | .entered => []

inductive Writes (period : UInt64) : TimerWrite → Prop
  | forward : Writes period (.gicd gicdCtlr 3)
  | enable : Writes period (.gicd gicdIsenabler0 (1 <<< irqCntpnsirq))
  | signal : Writes period (.gicc giccCtlr 3)
  | unmask : Writes period (.gicc giccPmr giccPmrAll)
  | arm : Writes period (.cntpTval period)
  | control {ctl : UInt64} : ctl &&& 3 = 1 → Writes period (.cntpCtl ctl)
  | finish {value : UInt32} : Writes period (.gicc giccEoir value)

structure Armed (s : State) : Prop where
  writes : ∀ w ∈ s.main.rest, Writes s.period w
  forwards : .gicd gicdCtlr 3 ∈ s.main.rest ∨ s.gic.forwards = 3
  enabled : .gicd gicdIsenabler0 (1 <<< irqCntpnsirq) ∈ s.main.rest ∨
    s.gic.enabled irqCntpnsirq.toNat = true
  signals : .gicc giccCtlr 3 ∈ s.main.rest ∨ s.gic.signals = 3
  mask : .gicc giccPmr giccPmrAll ∈ s.main.rest ∨ s.gic.mask = 0xFF
  deadline : .cntpTval s.period ∈ s.main.rest ∨
    s.timer.deadline ≤ s.timer.count + s.period.toNat
  control : (∃ ctl, .cntpCtl ctl ∈ s.main.rest) ∨ s.timer.control &&& 3 = 1
  active : ∀ n, s.gic.active n = true →
    ∃ value, .gicc giccEoir value ∈ s.main.rest ∧ intid value.toBitVec = n
  next : .cntpTval s.period ∈ s.main.rest ∨ ∀ a ∈ s.acks, a + s.period.toNat ≤ s.timer.deadline

structure Inv (cntfrq : UInt64) (s : State) : Prop extends Armed s where
  freq : s.freqHz = max cntfrq 1
  group : s.gic.group irqCntpnsirq.toNat < 2
  priority : s.gic.priority irqCntpnsirq.toNat < 0xFF
  past : ∀ a ∈ s.acks, a ≤ s.timer.count
  spaced : s.acks.Pairwise fun later earlier => earlier + s.period.toNat ≤ later

variable {cntfrq : UInt64} {s s' : State} {w x : TimerWrite} {rest : List TimerWrite} {m : Main}

theorem of_todo {P P' : Prop} (h : x ∈ w :: rest ∨ P) (hself : x = w → P') (hother : P → P') :
    x ∈ rest ∨ P' := by
  rcases h with h | h
  · rcases List.mem_cons.mp h with heq | h
    · exact .inr (hself heq)
    · exact .inl h
  · exact .inr (hother h)

theorem period_perform (h : Writes s.period w) : (s.perform w).period = s.period := by
  cases h <;> rfl

theorem active_perform (h : Writes s.period w) {n : Nat}
    (hn : (s.perform w).gic.active n = true) :
    s.gic.active n = true ∧ ∀ v, w = .gicc giccEoir v → intid v.toBitVec ≠ n := by
  cases h with
  | @finish value =>
    change Function.update s.gic.active (intid value.toBitVec) false n = true at hn
    by_cases heq : n = intid value.toBitVec
    · rw [heq, Function.update_self] at hn
      cases hn
    · rw [Function.update_of_ne heq] at hn
      refine ⟨hn, fun v hv => ?_⟩
      rw [← (TimerWrite.gicc.inj hv).2]
      exact Ne.symm heq
  | signal | unmask =>
    exact ⟨hn, fun v hv => absurd (TimerWrite.gicc.inj hv).1 (by decide)⟩
  | _ => exact ⟨hn, nofun⟩

theorem Armed.perform (h : Armed s) (hrest : s.main.rest = w :: rest) (hm : m.rest = rest)
    (hperiod : s.period.toNat < 2 ^ 31) (hpast : ∀ a ∈ s.acks, a ≤ s.timer.count) :
    Armed { s.perform w with main := m } := by
  obtain ⟨hwrites, hforwards, henabled, hsignals, hmask, hdeadline, hcontrol, hactive, hnext⟩ := h
  rw [hrest] at hwrites hforwards henabled hsignals hmask hdeadline hcontrol hactive hnext
  have hw : Writes s.period w := hwrites w (List.mem_cons_self ..)
  have harm : (s.timer.setValue s.period.toBitVec).deadline = s.timer.count + s.period.toNat :=
    GenericTimer.setValue_deadline hperiod
  have hkeeps : (s.perform w).period = s.period := period_perform hw
  have harmed : ∀ a ∈ s.acks,
      a + s.period.toNat ≤ (s.timer.setValue s.period.toBitVec).deadline := by
    intro a ha
    have hle := hpast a ha
    omega
  constructor
  · intro x hx
    change Writes (s.perform w).period x
    rw [hkeeps]
    exact hwrites x (List.mem_cons_of_mem _ (hm ▸ hx))
  · change _ ∈ m.rest ∨ _
    rw [hm]
    refine of_todo hforwards (by rintro rfl; rfl) fun hdone => ?_
    cases hw with
    | forward => rfl
    | _ => exact hdone
  · change _ ∈ m.rest ∨ _
    rw [hm]
    refine of_todo henabled (by rintro rfl; exact Bool.or_true _) fun hdone => ?_
    cases hw with
    | enable => exact Bool.or_true _
    | _ => exact hdone
  · change _ ∈ m.rest ∨ _
    rw [hm]
    refine of_todo hsignals (by rintro rfl; rfl) fun hdone => ?_
    cases hw with
    | signal => rfl
    | _ => exact hdone
  · change _ ∈ m.rest ∨ _
    rw [hm]
    refine of_todo hmask (by rintro rfl; rfl) fun hdone => ?_
    cases hw with
    | unmask => rfl
    | _ => exact hdone
  · change .cntpTval (s.perform w).period ∈ m.rest ∨
      (s.perform w).timer.deadline ≤ (s.perform w).timer.count + (s.perform w).period.toNat
    rw [hm, hkeeps]
    refine of_todo hdeadline (by rintro rfl; exact Int.le_of_eq harm) fun hdone => ?_
    cases hw with
    | arm => exact Int.le_of_eq harm
    | _ => exact hdone
  · change (∃ ctl, .cntpCtl ctl ∈ m.rest) ∨ (s.perform w).timer.control &&& 3 = 1
    rw [hm]
    by_cases hmore : ∃ ctl, .cntpCtl ctl ∈ rest
    · exact .inl hmore
    · refine .inr ?_
      cases hw with
      | control hctl => exact congrArg UInt64.toBitVec hctl
      | _ =>
        refine hcontrol.resolve_left ?_
        rintro ⟨ctl, hctl⟩
        exact hmore ⟨ctl, (List.mem_cons.mp hctl).resolve_left nofun⟩
  · intro n hn
    obtain ⟨hstill, hother⟩ := active_perform hw hn
    obtain ⟨value, hvalue, hid⟩ := hactive n hstill
    refine ⟨value, ?_, hid⟩
    rw [hm]
    exact (List.mem_cons.mp hvalue).resolve_left fun heq => hother value heq.symm hid
  · change .cntpTval (s.perform w).period ∈ m.rest ∨ ∀ a ∈ (s.perform w).acks,
      a + (s.perform w).period.toNat ≤ (s.perform w).timer.deadline
    rw [hm, hkeeps]
    refine of_todo hnext (by rintro rfl; exact harmed) fun hdone => ?_
    cases hw with
    | arm => exact harmed
    | _ => exact hdone

inductive Handles (s : State) (value : BitVec 32) : Prop
  | spurious : value = 0x3FF → s.handlerWrites value = [] → Handles s value
  | timer {ctl : UInt64} : intid value = irqCntpnsirq.toNat → ctl &&& 3 = 1 →
      s.handlerWrites value =
        [.cntpTval s.period, .cntpCtl ctl, .gicc giccEoir (.ofBitVec value)] →
      Handles s value
  | other : value ≠ 0x3FF → intid value ≠ irqCntpnsirq.toNat →
      s.handlerWrites value = [.gicc giccEoir (.ofBitVec value)] → Handles s value

theorem handles (hfreq : 0 < s.freqHz) (value : BitVec 32) : Handles s value := by
  have hid : UInt32.ofBitVec value &&& 0x3FF = irqCntpnsirq ↔
      intid value = irqCntpnsirq.toNat := by
    rw [← UInt32.toNat_inj]
    rfl
  by_cases htimer : intid value = irqCntpnsirq.toNat
  · have hctl := armedCtl_and (.ofBitVec s.timer.control)
    refine .timer htimer hctl ?_
    rw [State.handlerWrites, handleTimerIrq_of_timer hfreq (hid.mpr htimer)]
    rfl
  · by_cases hspurious : value = 0x3FF
    · refine .spurious hspurious ?_
      rw [hspurious]
      rfl
    · have hne : UInt32.ofBitVec value ≠ giccSpurious := by
        intro heq
        exact hspurious (congrArg UInt32.toBitVec heq)
      refine .other hspurious htimer ?_
      rw [State.handlerWrites, handleTimerIrq_of_other hne (mt hid.mp htimer)]
      rfl

theorem Armed.move (h : Armed s) (hm : m.rest = s.main.rest) : Armed { s with main := m } := by
  obtain ⟨hwrites, hforwards, henabled, hsignals, hmask, hdeadline, hcontrol, hactive, hnext⟩ := h
  rw [← hm] at hwrites hforwards henabled hsignals hmask hdeadline hcontrol hactive hnext
  exact ⟨hwrites, hforwards, henabled, hsignals, hmask, hdeadline, hcontrol, hactive, hnext⟩

theorem Armed.pass (h : Armed s) :
    Armed { s with timer := { s.timer with count := s.timer.count + 1 } } := by
  refine { h with deadline := h.deadline.imp_right fun hle => ?_ }
  change s.timer.deadline ≤ ((s.timer.count + 1 : Nat) : Int) + s.period.toNat
  omega

theorem Armed.acknowledge (h : Armed s) (hmain : s.main = .entered) (hfreq : 0 < s.freqHz)
    {value : BitVec 32} {gic : Gic} (hack : s.gic.Acknowledge s.waiting value gic) :
    Armed { s with
      gic := gic
      main := .handling (s.handlerWrites value)
      acks := if intid value = irqCntpnsirq.toNat then s.timer.count :: s.acks else s.acks } := by
  obtain ⟨-, hforwards, henabled, hsignals, hmask, hdeadline, hcontrol, hactive, hnext⟩ := h
  have hrest : s.main.rest = [] := congrArg Main.rest hmain
  have hhandles := handles hfreq value
  rw [hrest] at hforwards henabled hsignals hmask hdeadline hcontrol hactive hnext
  have hidle : ∀ n, s.gic.active n = false := by
    intro n
    rw [← Bool.not_eq_true]
    intro hn
    obtain ⟨_, hvalue, _⟩ := hactive n hn
    exact List.not_mem_nil hvalue
  rw [hack.eq]
  constructor
  · change ∀ w ∈ s.handlerWrites value, Writes s.period w
    cases hhandles with
    | spurious _ hwrites => simp [hwrites]
    | timer _ hctl hwrites => simp [hwrites, Writes.arm, Writes.control hctl, Writes.finish]
    | other _ _ hwrites => simp [hwrites, Writes.finish]
  · exact .inr (hforwards.resolve_left List.not_mem_nil)
  · exact .inr (henabled.resolve_left List.not_mem_nil)
  · exact .inr (hsignals.resolve_left List.not_mem_nil)
  · exact .inr (hmask.resolve_left List.not_mem_nil)
  · exact .inr (hdeadline.resolve_left List.not_mem_nil)
  · exact .inr (hcontrol.resolve_left fun ⟨_, hctl⟩ => List.not_mem_nil hctl)
  · intro n hn
    obtain ⟨hvalue, hid⟩ := (hack.active hn).resolve_left (by simp [hidle n])
    refine ⟨.ofBitVec value, ?_, hid⟩
    change _ ∈ s.handlerWrites value
    cases hhandles with
    | spurious heq => exact absurd heq hvalue
    | timer _ _ hwrites => simp [hwrites]
    | other _ _ hwrites => simp [hwrites]
  · change .cntpTval s.period ∈ s.handlerWrites value ∨
      ∀ a ∈ if intid value = irqCntpnsirq.toNat then s.timer.count :: s.acks else s.acks,
        a + s.period.toNat ≤ s.timer.deadline
    cases hhandles with
    | timer _ _ hwrites => exact .inl (by simp [hwrites])
    | spurious heq =>
      rw [if_neg (by rw [heq]; decide)]
      exact .inr (hnext.resolve_left List.not_mem_nil)
    | other _ hid =>
      rw [if_neg hid]
      exact .inr (hnext.resolve_left List.not_mem_nil)

theorem Inv.period (inv : Inv cntfrq s) (hfreq : cntfrq.toNat < 2 ^ 32) :
    0 < s.freqHz ∧ s.period.toNat < 2 ^ 31 := by
  rw [State.period, inv.freq]
  refine ⟨init_freqHz cntfrq ⟨.new, 0, 0, []⟩, ?_⟩
  rw [UInt64.toNat_div]
  have hmax : (max cntfrq 1).toNat < 2 ^ 32 := by
    change (if cntfrq ≤ 1 then 1 else cntfrq).toNat < 2 ^ 32
    split
    · decide
    · exact hfreq
  rw [show periodDivisor.toNat = 1000 from rfl]
  omega

/-- The timer's interrupt is acknowledged once its deadline has passed, which is a period after the
last one. -/
theorem Inv.acknowledge (inv : Inv cntfrq s) (hmain : s.main = .entered) (hfreq : 0 < s.freqHz)
    {value : BitVec 32} {gic : Gic} (hack : s.gic.Acknowledge s.waiting value gic) :
    Inv cntfrq { s with
      gic := gic
      main := .handling (s.handlerWrites value)
      acks := if intid value = irqCntpnsirq.toNat then s.timer.count :: s.acks else s.acks } := by
  have hnext := inv.next.resolve_left (by rw [hmain]; exact List.not_mem_nil)
  have heq := hack.eq
  refine ⟨inv.toArmed.acknowledge hmain hfreq hack, inv.freq, ?_, ?_, ?_, ?_⟩
  · rw [heq]
    exact inv.group
  · rw [heq]
    exact inv.priority
  · intro a ha
    change a ∈ if _ then _ else _ at ha
    split at ha
    · rcases List.mem_cons.mp ha with rfl | ha
      · exact Nat.le_refl _
      · exact inv.past a ha
    · exact inv.past a ha
  · change List.Pairwise _ (if _ then _ else _)
    split
    case isFalse => exact inv.spaced
    case isTrue hid =>
      refine List.pairwise_cons.mpr ⟨fun a ha => ?_, inv.spaced⟩
      -- the interrupt is the timer's, so that its deadline has passed
      have hwaits := hack.waits (by rw [hid]; decide)
      rw [hid, State.waiting, if_pos rfl] at hwaits
      have hpassed := GenericTimer.deadline_le_of_fires hwaits
      have hle := hnext a ha
      change a + s.period.toNat ≤ s.timer.count
      omega

theorem Inv.step (inv : Inv cntfrq s) (hfreq : cntfrq.toNat < 2 ^ 32) (h : Step s s') :
    Inv cntfrq s' := by
  obtain ⟨hpositive, hperiod⟩ := inv.period hfreq
  have perform {w : TimerWrite} {rest : List TimerWrite} {m : Main}
      (hrest : s.main.rest = w :: rest) (hm : m.rest = rest) :
      Inv cntfrq { s.perform w with main := m } := by
    have hw : Writes s.period w := inv.writes w (hrest ▸ List.mem_cons_self ..)
    have harmed := inv.toArmed.perform hrest hm hperiod inv.past
    cases hw <;> exact ⟨harmed, inv.freq, inv.group, inv.priority, inv.past, inv.spaced⟩
  have move {m : Main} (hm : m.rest = s.main.rest) : Inv cntfrq { s with main := m } :=
    { inv with toArmed := inv.toArmed.move hm }
  cases h with
  | pass =>
    exact { inv with
      toArmed := inv.toArmed.pass
      past := fun a ha => Nat.le_succ_of_le (inv.past a ha) }
  | line => exact { inv with toArmed := { inv.toArmed with } }
  | boot hmain => exact perform (congrArg Main.rest hmain) rfl
  | handle hmain => exact perform (congrArg Main.rest hmain) rfl
  | started hmain => exact move (congrArg Main.rest hmain).symm
  | setInterrupts _ hmain => exact move (congrArg Main.rest hmain).symm
  | enter hmain => exact move (congrArg Main.rest hmain).symm
  | finish hmain => exact move (congrArg Main.rest hmain).symm
  | acknowledge hmain hack => exact inv.acknowledge hmain hpositive hack

theorem Armed.boot {ctl : UInt64} (hctl : ctl &&& 3 = 1)
    (hrest : s.main.rest = [.gicd gicdCtlr 3, .gicd gicdIsenabler0 (1 <<< irqCntpnsirq),
      .gicc giccCtlr 3, .gicc giccPmr giccPmrAll, .cntpTval s.period, .cntpCtl ctl])
    (hacks : s.acks = []) (hactive : ∀ n, s.gic.active n = false) : Armed s where
  writes := by
    rw [hrest]
    simp [Writes.forward, Writes.enable, Writes.signal, Writes.unmask, Writes.arm,
      Writes.control hctl]
  forwards := .inl (by simp [hrest])
  enabled := .inl (by simp [hrest])
  signals := .inl (by simp [hrest])
  mask := .inl (by simp [hrest])
  deadline := .inl (by simp [hrest])
  control := .inl ⟨ctl, by simp [hrest]⟩
  active n hn := by
    rw [hactive n] at hn
    cases hn
  next := .inr (by simp [hacks])

theorem invariant (hfreq : cntfrq.toNat < 2 ^ 32) : (ticking cntfrq).Invariant (Inv cntfrq) where
  init := by
    rintro s ⟨hmain, hfreqHz, hacks, hactive, hgroup, hpriority⟩
    have harmed : Armed s := by
      refine .boot (armedCtl_and (.ofBitVec s.timer.control)) ?_ hacks hactive
      rw [hmain, State.period, hfreqHz]
      rfl
    exact ⟨harmed, hfreqHz, hgroup, hpriority, by simp [hacks], by simp [hacks]⟩
  step inv h := inv.step hfreq h

/-- The timer's interrupts are a period apart, and outside the handler the next one is at most a
period away, with nothing in service that would keep it out. -/
structure Periodic (cntfrq : UInt64) (s : State) : Prop where
  period : s.period = max cntfrq 1 / periodDivisor
  spaced : s.acks.Pairwise fun later earlier => earlier + s.period.toNat ≤ later
  deadline : ∀ enabled, s.main = .running enabled →
    s.timer.deadline ≤ s.timer.count + s.period.toNat
  idle : ∀ enabled, s.main = .running enabled → ∀ n, s.gic.active n = false
  asks : ∀ enabled, s.main = .running enabled → s.timer.deadline ≤ s.timer.count →
    s.gic.Asks s.waiting irqCntpnsirq.toNat

theorem periodic (h : (ticking cntfrq).Reachable s) (hfreq : cntfrq.toNat < 2 ^ 32) :
    Periodic cntfrq s := by
  have inv := (invariant hfreq).reachable h
  obtain ⟨-, hforwards, henabled, hsignals, hmask, hdeadline, hcontrol, hactive, -⟩ := inv.toArmed
  have hnone (enabled : Bool) (hmain : s.main = .running enabled) (w : TimerWrite) :
      w ∉ s.main.rest := by
    rw [hmain]
    exact List.not_mem_nil
  have hidle : ∀ enabled, s.main = .running enabled → ∀ n, s.gic.active n = false := by
    intro enabled hmain n
    rw [← Bool.not_eq_true]
    intro hn
    obtain ⟨_, hvalue, _⟩ := hactive n hn
    exact hnone enabled hmain _ hvalue
  refine ⟨by rw [State.period, inv.freq], inv.spaced, fun enabled hmain =>
    hdeadline.resolve_left (hnone enabled hmain _), hidle, ?_⟩
  intro enabled hmain hpassed
  have hcontrol := hcontrol.resolve_left fun ⟨_, hctl⟩ => hnone enabled hmain _ hctl
  have hbit (k : Nat) : (s.timer.control.getLsbD k && (3 : BitVec 64).getLsbD k) =
      (1 : BitVec 64).getLsbD k := by
    rw [← BitVec.getLsbD_and, hcontrol]
  have henable : s.timer.control.getLsbD 0 = true := (Bool.and_true _).symm.trans (hbit 0)
  have hunmask : s.timer.control.getLsbD 1 = false := (Bool.and_true _).symm.trans (hbit 1)
  have hgroups : ∀ k < 2, (3 : BitVec 32).getLsbD k = true := by decide
  constructor
  · decide
  · exact henabled.resolve_left (hnone enabled hmain _)
  · rw [State.waiting, if_pos rfl, GenericTimer.fires, henable, hunmask, decide_eq_true hpassed]
    rfl
  · exact hidle enabled hmain _
  · rw [hforwards.resolve_left (hnone enabled hmain _)]
    exact hgroups _ inv.group
  · rw [hsignals.resolve_left (hnone enabled hmain _)]
    exact hgroups _ inv.group
  · rw [hmask.resolve_left (hnone enabled hmain _)]
    exact inv.priority
  · intro n hn
    rw [hidle enabled hmain n] at hn
    cases hn

def reset : State where
  gic := ⟨0, 0, fun _ => false, fun _ => 0, fun _ => 0, 0, fun _ => false⟩
  timer := ⟨7, 0, 0⟩
  lines _ := false
  freqHz := 1000
  main := .starting (initWrites 1000 0)
  acks := []

theorem periodic_reset : ∃ s, s.acks = [8] ∧ Periodic 1000 s := by
  have hinit : (ticking 1000).Reachable reset :=
    .init ⟨rfl, rfl, rfl, fun _ => rfl, by decide, by decide⟩
  have hwrites : (ticking 1000).Steps reset _ := ((((((System.Steps.refl reset).tail
    (Step.boot rfl)).tail (Step.boot rfl)).tail (Step.boot rfl)).tail (Step.boot rfl)).tail
    (Step.boot rfl)).tail (Step.boot rfl)
  have hpassed := ((hwrites.tail (Step.started rfl)).tail (Step.setInterrupts true rfl)).tail
    Step.pass
  have hasks := (periodic (hinit.steps hpassed) (by decide)).asks true rfl (by decide)
  have hack : Gic.Acknowledge _ _ 30 _ := .take ⟨hasks, fun _ _ => Nat.zero_le _⟩ (.inl rfl) rfl
  have hhandled := (hpassed.tail (Step.enter rfl hasks)).tail (Step.acknowledge rfl hack)
  exact ⟨_, rfl, periodic (hinit.steps hhandled) (by decide)⟩

end FerricK.Gictimer
