import FerricK.Irq.Guard
import FerricK.Time.Defs

namespace FerricK

/-- A write to a device or a timer register; `gicd` and `gicc` take the offset of the register. -/
inductive TimerWrite
  | out (port : UInt16) (value : UInt8)
  | gicd (offset : UInt64) (value : UInt32)
  | gicc (offset : UInt64) (value : UInt32)
  | cntpTval (value : UInt64)
  | cntpCtl (value : UInt64)
  deriving DecidableEq

structure TimerState where
  time : Time
  freqHz : UInt64
  cntpCtl : UInt64
  writes : List TimerWrite

def TimerState.write (s : TimerState) (ws : List TimerWrite) : TimerState :=
  { s with writes := s.writes ++ ws }

namespace Pit

def pic1Cmd : UInt16 := 0x20
def pic1Data : UInt16 := 0x21
def pic2Cmd : UInt16 := 0xA0
def pic2Data : UInt16 := 0xA1
def icw1 : UInt8 := 0x11
def icw2Master : UInt8 := 0x20
def icw2Slave : UInt8 := 0x28
def icw3Master : UInt8 := 0x04
def icw3Slave : UInt8 := 0x02
def icw4 : UInt8 := 0x01
def masterMask : UInt8 := ~~~((1 : UInt8) <<< 0 ||| (1 : UInt8) <<< 2)
def slaveMask : UInt8 := 0xFF
def picEoi : UInt8 := 0x20
def cmdMode3 : UInt8 := 0x36

def remapPic (s : TimerState) : TimerState :=
  s.write [.out pic1Cmd icw1, .out pic2Cmd icw1, .out pic1Data icw2Master,
    .out pic2Data icw2Slave, .out pic1Data icw3Master, .out pic2Data icw3Slave,
    .out pic1Data icw4, .out pic2Data icw4, .out pic1Data masterMask, .out pic2Data slaveMask]

def init (s : TimerState) : TimerState :=
  (remapPic s).write [.out 0x43 cmdMode3, .out 0x40 timerDivisor.toUInt8,
    .out 0x40 (timerDivisor >>> 8).toUInt8]

def handleTimerIrq (s : TimerState) : TimerState :=
  { s with time := s.time.bumpTick }.write [.out pic1Cmd picEoi]

end Pit

namespace Gictimer

def gicdCtlr : UInt64 := 0x000
def gicdIsenabler0 : UInt64 := 0x100
def giccCtlr : UInt64 := 0x000
def giccPmr : UInt64 := 0x004
def giccEoir : UInt64 := 0x010
def giccPmrAll : UInt32 := 0xFF
def giccSpurious : UInt32 := 0x3FF
def irqCntpnsirq : UInt32 := 30
def periodDivisor : UInt64 := 1000

def armedCtl (ctl : UInt64) : UInt64 := (ctl ||| 1) &&& ~~~2

def armTimer (delta : UInt64) (s : TimerState) : TimerState :=
  { s with cntpCtl := armedCtl s.cntpCtl }.write [.cntpTval delta, .cntpCtl (armedCtl s.cntpCtl)]

def program (s : TimerState) : TimerState :=
  s.write [.gicd gicdCtlr 3, .gicd gicdIsenabler0 (1 <<< irqCntpnsirq), .gicc giccCtlr 3,
    .gicc giccPmr giccPmrAll]

def init (cntfrq : UInt64) (s : TimerState) : TimerState :=
  let freq := max cntfrq 1
  armTimer (freq / periodDivisor) { program s with freqHz := freq }

def handleTimerIrq (intid : UInt32) (s : TimerState) : TimerState :=
  if intid = giccSpurious then s
  else
    let s :=
      if intid &&& 0x3FF = irqCntpnsirq then
        if 0 < s.freqHz then armTimer (s.freqHz / periodDivisor) s else s
      else s
    s.write [.gicc giccEoir intid]

variable {intid : UInt32} {s : TimerState}

theorem init_freqHz (cntfrq : UInt64) (s : TimerState) : 0 < (init cntfrq s).freqHz := by
  change 0 < if cntfrq ≤ 1 then 1 else cntfrq
  split
  case isTrue => decide
  case isFalse h => exact UInt64.lt_trans (by decide) (UInt64.not_le.mp h)

theorem armedCtl_and (ctl : UInt64) : armedCtl ctl &&& 3 = 1 := by
  have hmask : ~~~(2 : UInt64) &&& 3 = 1 := by decide
  rw [armedCtl, UInt64.and_assoc, hmask, ← UInt64.toNat_inj, UInt64.toNat_and, UInt64.toNat_or]
  exact (Nat.and_one_is_mod _).trans (Nat.or_mod_two_eq_one.mpr (.inr rfl))

theorem handleTimerIrq_of_timer (hfreq : 0 < s.freqHz) (h : intid &&& 0x3FF = irqCntpnsirq) :
    handleTimerIrq intid s =
      (armTimer (s.freqHz / periodDivisor) s).write [.gicc giccEoir intid] := by
  have hspurious : intid ≠ giccSpurious := by
    rintro rfl
    exact absurd h (by decide)
  rw [handleTimerIrq, if_neg hspurious, if_pos h, if_pos hfreq]

theorem handleTimerIrq_of_other (hspurious : intid ≠ giccSpurious)
    (h : intid &&& 0x3FF ≠ irqCntpnsirq) :
    handleTimerIrq intid s = s.write [.gicc giccEoir intid] := by
  rw [handleTimerIrq, if_neg hspurious, if_neg h]

/-- No acknowledged id moves the counters. -/
theorem handleTimerIrq_time : (handleTimerIrq intid s).time = s.time := by
  unfold handleTimerIrq
  split
  · rfl
  · dsimp only
    split
    · split <;> rfl
    · rfl

end Gictimer

namespace Arch

def Irq : Arch → Type
  | x86_64 => Unit
  | aarch64 => UInt32

def init : Arch → UInt64 → TimerState → TimerState
  | x86_64 => fun _ => Pit.init
  | aarch64 => Gictimer.init

def handleTimerIrq : (arch : Arch) → arch.Irq → TimerState → TimerState
  | x86_64 => fun _ => Pit.handleTimerIrq
  | aarch64 => Gictimer.handleTimerIrq

def deliver (arch : Arch) (s : TimerState) (irqs : List arch.Irq) : TimerState :=
  irqs.foldl (fun s irq => arch.handleTimerIrq irq s) s

def isTimer : (arch : Arch) → arch.Irq → Bool
  | x86_64 => fun _ => true
  | aarch64 => fun (intid : UInt32) => intid &&& 0x3FF = Gictimer.irqCntpnsirq

def isSpurious : (arch : Arch) → arch.Irq → Bool
  | x86_64 => fun _ => false
  | aarch64 => fun (intid : UInt32) => intid = Gictimer.giccSpurious

def eoi : (arch : Arch) → arch.Irq → TimerWrite
  | x86_64 => fun _ => .out Pit.pic1Cmd Pit.picEoi
  | aarch64 => fun intid => .gicc Gictimer.giccEoir intid

def isEoi : Arch → TimerWrite → Bool
  | x86_64, .out port value => port = Pit.pic1Cmd && value = Pit.picEoi
  | aarch64, .gicc offset _ => offset = Gictimer.giccEoir
  | _, _ => false

/-- The PIT starts its next period by itself; the generic timer needs a new one, and to be enabled
and not masked. -/
def Rearms : Arch → List TimerWrite → Prop
  | x86_64, ws => ws = []
  | aarch64, ws => ∃ delta ctl, ws = [.cntpTval delta, .cntpCtl ctl] ∧ ctl &&& 3 = 1

/-- What `time` and the handlers promise at every point of a sequence of interrupts. -/
structure Accounts (arch : Arch) (s : TimerState) (irqs : List arch.Irq) : Prop where
  ticks : ∀ before, before <+: irqs →
    (arch.deliver s before).time.ticks = s.time.ticks + .ofNat (before.countP arch.isTimer)
  ended : ∀ before, before <+: irqs →
    (arch.deliver s before).writes.filter arch.isEoi =
      s.writes.filter arch.isEoi ++ (before.filter (!arch.isSpurious ·)).map arch.eoi
  rearmed : ∀ before irq, before ++ [irq] <+: irqs → arch.isTimer irq →
    ∃ ws, arch.Rearms ws ∧ (arch.deliver s (before ++ [irq])).writes =
      (arch.deliver s before).writes ++ ws ++ [arch.eoi irq]

def Ready : Arch → TimerState → Prop
  | x86_64, _ => True
  | aarch64, s => 0 < s.freqHz

variable {arch : Arch} {s : TimerState}

theorem deliver_concat (irqs : List arch.Irq) (irq : arch.Irq) :
    arch.deliver s (irqs ++ [irq]) = arch.handleTimerIrq irq (arch.deliver s irqs) :=
  List.foldl_concat ..

theorem ready_init (cntfrq : UInt64) : arch.Ready (arch.init cntfrq s) := by
  cases arch with
  | x86_64 => trivial
  | aarch64 => exact Gictimer.init_freqHz cntfrq s

structure Handled (arch : Arch) (s : TimerState) (irq : arch.Irq) (ws : List TimerWrite) :
    Prop where
  ready : arch.Ready (arch.handleTimerIrq irq s)
  rearms : arch.isTimer irq → arch.Rearms ws
  no_eoi : ws.filter arch.isEoi = []
  writes : (arch.handleTimerIrq irq s).writes =
    s.writes ++ ws ++ if arch.isSpurious irq then [] else [arch.eoi irq]

theorem isSpurious_of_isTimer {irq : arch.Irq} (h : arch.isTimer irq) :
    arch.isSpurious irq = false := by
  cases arch with
  | x86_64 => rfl
  | aarch64 =>
    rw [isTimer, decide_eq_true_eq] at h
    rw [isSpurious, decide_eq_false_iff_not]
    rintro rfl
    exact absurd h (by decide)

theorem Handled.of_x86_64 (irq : x86_64.Irq) : Handled x86_64 s irq [] where
  ready := trivial
  rearms _ := rfl
  no_eoi := rfl
  writes := congrArg (· ++ [_]) (List.append_nil s.writes).symm

theorem Handled.of_timer {intid : UInt32} (hfreq : 0 < s.freqHz)
    (h : intid &&& 0x3FF = Gictimer.irqCntpnsirq) : Handled aarch64 s intid
      [.cntpTval (s.freqHz / Gictimer.periodDivisor), .cntpCtl (Gictimer.armedCtl s.cntpCtl)] := by
  have heq : aarch64.handleTimerIrq intid s = _ := Gictimer.handleTimerIrq_of_timer hfreq h
  have hspurious : aarch64.isSpurious intid = false := isSpurious_of_isTimer (decide_eq_true h)
  constructor
  · rw [heq]
    exact hfreq
  · exact fun _ => ⟨_, _, rfl, Gictimer.armedCtl_and s.cntpCtl⟩
  · rfl
  · rw [heq, hspurious]
    rfl

theorem Handled.of_other {intid : UInt32} (hfreq : 0 < s.freqHz)
    (h : intid &&& 0x3FF ≠ Gictimer.irqCntpnsirq) : Handled aarch64 s intid [] := by
  have hrearms : aarch64.isTimer intid → aarch64.Rearms [] := fun htimer =>
    absurd (of_decide_eq_true htimer) h
  by_cases hspurious : intid = Gictimer.giccSpurious
  · have heq : aarch64.handleTimerIrq intid s = s := if_pos hspurious
    refine ⟨by rwa [heq], hrearms, rfl, ?_⟩
    rw [heq, isSpurious, if_pos (decide_eq_true hspurious), List.append_nil, List.append_nil]
  · have heq : aarch64.handleTimerIrq intid s = _ := Gictimer.handleTimerIrq_of_other hspurious h
    refine ⟨by rwa [heq], hrearms, rfl, ?_⟩
    rw [heq, isSpurious, if_neg (by simpa using hspurious), List.append_nil]
    rfl

theorem exists_handled (hready : arch.Ready s) (irq : arch.Irq) : ∃ ws, Handled arch s irq ws := by
  cases arch with
  | x86_64 => exact ⟨_, .of_x86_64 irq⟩
  | aarch64 =>
    by_cases h : aarch64.isTimer irq
    · exact ⟨_, .of_timer hready (of_decide_eq_true h)⟩
    · exact ⟨_, .of_other hready (fun htimer => h (decide_eq_true htimer))⟩

theorem ready_deliver (hready : arch.Ready s) (irqs : List arch.Irq) :
    arch.Ready (arch.deliver s irqs) := by
  induction irqs using List.reverseRecOn with
  | nil => exact hready
  | append_singleton irqs irq ih =>
    obtain ⟨ws, h⟩ := exists_handled ih irq
    rw [deliver_concat]
    exact h.ready

theorem isEoi_eoi (irq : arch.Irq) : arch.isEoi (arch.eoi irq) = true := by
  cases arch <;> rfl

theorem filter_writes_deliver (hready : arch.Ready s) (irqs : List arch.Irq) :
    (arch.deliver s irqs).writes.filter arch.isEoi =
      s.writes.filter arch.isEoi ++ (irqs.filter (!arch.isSpurious ·)).map arch.eoi := by
  induction irqs using List.reverseRecOn with
  | nil => exact (List.append_nil _).symm
  | append_singleton irqs irq ih =>
    obtain ⟨ws, h⟩ := exists_handled (ready_deliver hready irqs) irq
    rw [deliver_concat, h.writes, List.filter_append, List.filter_append, ih, h.no_eoi,
      List.append_nil, List.filter_append, List.map_append, List.append_assoc]
    cases hspurious : arch.isSpurious irq with
    | true => simp [hspurious]
    | false => simp [hspurious, isEoi_eoi]

theorem Accounts.of_ticks (hready : arch.Ready s) {irqs : List arch.Irq}
    (h : ∀ before, before <+: irqs →
      (arch.deliver s before).time.ticks = s.time.ticks + .ofNat (before.countP arch.isTimer)) :
    arch.Accounts s irqs where
  ticks := h
  ended before _ := filter_writes_deliver hready before
  rearmed before irq _ htimer := by
    obtain ⟨ws, h⟩ := exists_handled (ready_deliver hready before) irq
    refine ⟨ws, h.rearms htimer, ?_⟩
    rw [deliver_concat, h.writes, isSpurious_of_isTimer htimer]
    rfl

theorem x86_64_ticks_deliver (irqs : List x86_64.Irq) :
    (x86_64.deliver s irqs).time.ticks =
      s.time.ticks + .ofNat (irqs.countP x86_64.isTimer) := by
  induction irqs using List.reverseRecOn with
  | nil => exact (UInt64.add_zero _).symm
  | append_singleton irqs irq ih =>
    have htimer : x86_64.isTimer irq := rfl
    have hbump : (x86_64.handleTimerIrq irq (x86_64.deliver s irqs)).time.ticks =
      (x86_64.deliver s irqs).time.ticks + 1 := rfl
    rw [deliver_concat, hbump, ih, List.countP_append, List.countP_singleton, if_pos htimer,
      UInt64.ofNat_add, UInt64.add_assoc]
    rfl

theorem aarch64_time_deliver (irqs : List aarch64.Irq) :
    (aarch64.deliver s irqs).time = s.time := by
  induction irqs using List.reverseRecOn with
  | nil => rfl
  | append_singleton irqs irq ih =>
    rw [deliver_concat, ← ih]
    exact Gictimer.handleTimerIrq_time

/-- On aarch64 no interrupt is counted, so that the ticks are right as long as none is due. -/
theorem accounts_iff (arch : Arch) (cntfrq : UInt64) (s : TimerState) (irqs : List arch.Irq) :
    arch.Accounts (arch.init cntfrq s) irqs ↔
      ∀ irq ∈ irqs, arch.isTimer irq → arch = x86_64 := by
  have hready : arch.Ready (arch.init cntfrq s) := ready_init cntfrq
  cases arch with
  | x86_64 =>
    constructor
    · exact fun _ _ _ _ => rfl
    · exact fun _ => .of_ticks hready fun before _ => x86_64_ticks_deliver before
  | aarch64 =>
    constructor
    · intro h irq hirq htimer
      obtain ⟨before, after, rfl⟩ := List.append_of_mem hirq
      have hbefore := h.ticks before (List.prefix_append _ _)
      have hcounted := h.ticks (before ++ [irq]) ⟨after, List.append_assoc ..⟩
      rw [aarch64_time_deliver] at hbefore hcounted
      rw [List.countP_append, List.countP_singleton, if_pos htimer, UInt64.ofNat_add,
        ← UInt64.add_assoc, ← hbefore] at hcounted
      exact absurd (UInt64.left_eq_add.mp hcounted) (by decide)
    · intro h
      refine .of_ticks hready fun before hbefore => ?_
      have hnone : before.countP aarch64.isTimer = 0 := by
        rw [List.countP_eq_zero]
        intro irq hirq htimer
        cases h irq (hbefore.subset hirq) htimer
      rw [aarch64_time_deliver, hnone]
      exact (UInt64.add_zero _).symm

/-- The generic timer of QEMU's machine, which runs at 62.5 MHz. -/
theorem timer_tick_lost :
    ¬ aarch64.Accounts (aarch64.init 62500000 ⟨.new, 0, 0, []⟩) [(30 : UInt32)] := by
  intro h
  exact absurd (h.ticks [(30 : UInt32)] List.prefix_rfl) (by decide)

end Arch

end FerricK
