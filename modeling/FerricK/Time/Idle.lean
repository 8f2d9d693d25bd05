import FerricK.Lib.System
import FerricK.Monitor.Load
import FerricK.Time.Defs

/-! The main loop sleeps and samples while the timer interrupts it anywhere: the idle ticks are a
share of all the ticks. -/

namespace FerricK.Idle

open Rust

/-- Where the main loop is: between two calls, in `wait_for_interrupt`, or in `sample`, which has
read the total. -/
inductive Main
  | running
  | entered (enteredTicks : UInt64)
  | halted (enteredTicks : UInt64)
  | woken (enteredTicks : UInt64)
  | reread (enteredTicks ticks : UInt64)
  | counted (uptimeNs : UInt64) (memoryRegions : Vector MemoryRegion maxMemoryRegions)
      (memoryRegionCount : Nat) (totalTicks : UInt64)

structure Kernel where
  time : Time
  serviced : Nat
  main : Main
  samples : List MonitorSample

/-- What the main loop decides comes with what else `sample` reads. -/
inductive Action
  | interrupt
  | waitForInterrupt
  | sample (uptimeNs : UInt64) (memoryRegions : Vector MemoryRegion maxMemoryRegions)
      (memoryRegionCount : Nat)
  | proceed

def Main.wake : Main → Main
  | .halted enteredTicks => .woken enteredTicks
  | main => main

namespace Kernel

def start : Kernel where
  time := .new
  serviced := 0
  main := .running
  samples := []

def act (s : Kernel) : Action → Option Kernel
  | .interrupt =>
    some { s with time := s.time.bumpTick, serviced := s.serviced + 1, main := s.main.wake }
  | .waitForInterrupt =>
    match s.main with
    | .running => some { s with main := .entered s.time.ticks }
    | _ => none
  | .sample uptimeNs memoryRegions memoryRegionCount =>
    match s.main with
    | .running =>
      some { s with main := .counted uptimeNs memoryRegions memoryRegionCount s.time.ticks }
    | _ => none
  | .proceed =>
    match s.main with
    | .running | .halted _ => none
    | .entered enteredTicks => some { s with main := .halted enteredTicks }
    | .woken enteredTicks => some { s with main := .reread enteredTicks s.time.ticks }
    | .reread enteredTicks ticks =>
      some { s with
        time := s.time.recordIdle (saturatingSub ticks enteredTicks)
        main := .running }
    | .counted uptimeNs memoryRegions memoryRegionCount totalTicks =>
      some { s with
        main := .running
        samples := s.samples ++
          [⟨uptimeNs, totalTicks, s.time.idleTicks, memoryRegions, memoryRegionCount⟩] }

end Kernel

def system : System Kernel where
  init s := s = .start
  step s s' := ∃ a, s.act a = some s'

structure Within (total idle total' idle' : UInt64) : Prop where
  idle_le : idle.toNat ≤ idle'.toNat
  busy_le : idle'.toNat + total.toNat ≤ total'.toNat + idle.toNat

/-- The next idle time to be recorded starts here or later. -/
def Main.floor (ticks : UInt64) : Main → UInt64
  | .running => ticks
  | .entered enteredTicks | .halted enteredTicks | .woken enteredTicks => enteredTicks
  | .reread enteredTicks _ => enteredTicks
  | .counted _ _ _ totalTicks => totalTicks

def Main.Legal (ticks : UInt64) : Main → Prop
  | .reread enteredTicks now => enteredTicks ≤ now ∧ now ≤ ticks
  | main => main.floor ticks ≤ ticks

def Kernel.floor (s : Kernel) : UInt64 := s.main.floor s.time.ticks

structure Inv (s : Kernel) : Prop where
  serviced : s.time.ticks.toNat = s.serviced
  legal : s.main.Legal s.time.ticks
  idle_le : s.time.idleTicks ≤ s.floor
  past : ∀ a ∈ s.samples, Within a.totalTicks a.idleTicks s.floor s.time.idleTicks
  pairwise : s.samples.Pairwise fun a b =>
    Within a.totalTicks a.idleTicks b.totalTicks b.idleTicks

variable {s s' : Kernel} {main : Main} {ticks ticks' : UInt64}

theorem Main.Legal.floor_le (h : main.Legal ticks) : main.floor ticks ≤ ticks := by
  cases main with
  | reread enteredTicks now => exact UInt64.le_trans h.1 h.2
  | _ => exact h

/-- Where a wait or a sample is under way, later ticks do not move its floor. -/
theorem Main.floor_mono (main : Main) (hle : ticks ≤ ticks') :
    main.floor ticks ≤ main.wake.floor ticks' := by
  cases main with
  | running => exact hle
  | _ => exact UInt64.le_refl _

theorem Main.Legal.wake (h : main.Legal ticks) (hle : ticks ≤ ticks') :
    main.wake.Legal ticks' := by
  cases main with
  | running => exact UInt64.le_refl _
  | reread enteredTicks now => exact ⟨h.1, UInt64.le_trans h.2 hle⟩
  | _ => exact UInt64.le_trans (show _ from h) hle

theorem Within.of_le {total idle total' idle' total'' : UInt64} (h : Within total idle total' idle')
    (hle : total' ≤ total'') : Within total idle total'' idle' where
  idle_le := h.idle_le
  busy_le := by
    have hbusy := h.busy_le
    rw [UInt64.le_iff_toNat_le] at hle
    omega

theorem Inv.start : Inv .start where
  serviced := rfl
  legal := UInt64.le_refl _
  idle_le := UInt64.le_refl _
  past _ h := nomatch h
  pairwise := .nil

theorem Inv.interrupt (inv : Inv s) (hlt : s.serviced + 1 < 2 ^ 64) :
    Inv { s with time := s.time.bumpTick, serviced := s.serviced + 1, main := s.main.wake } := by
  have hbump : s.time.bumpTick.ticks.toNat = s.time.ticks.toNat + 1 := by
    have hserviced := inv.serviced
    rw [Time.bumpTick, UInt64.toNat_add]
    exact Nat.mod_eq_of_lt (by rw [hserviced]; exact hlt)
  have hle : s.time.ticks ≤ s.time.bumpTick.ticks := by
    rw [UInt64.le_iff_toNat_le, hbump]
    exact Nat.le_succ _
  have hfloor := s.main.floor_mono hle
  exact {
    serviced := by rw [hbump, inv.serviced]
    legal := inv.legal.wake hle
    idle_le := UInt64.le_trans inv.idle_le hfloor
    past := fun a ha => (inv.past a ha).of_le hfloor
    pairwise := inv.pairwise }

theorem Inv.access (inv : Inv s) (hlegal : main.Legal s.time.ticks)
    (hfloor : main.floor s.time.ticks = s.floor) : Inv { s with main := main } where
  serviced := inv.serviced
  legal := hlegal
  idle_le := by
    change _ ≤ main.floor s.time.ticks
    rw [hfloor]
    exact inv.idle_le
  past a ha := by
    change Within _ _ (main.floor s.time.ticks) _
    rw [hfloor]
    exact inv.past a ha
  pairwise := inv.pairwise

theorem Inv.record (inv : Inv s) (hmain : s.main = .reread ticks ticks') :
    Inv { s with time := s.time.recordIdle (saturatingSub ticks' ticks), main := .running } := by
  have hlegal := inv.legal
  have hidle := inv.idle_le
  have hfloor : s.floor = ticks := by rw [Kernel.floor, hmain]; rfl
  rw [hmain] at hlegal
  rw [hfloor, UInt64.le_iff_toNat_le] at hidle
  obtain ⟨hentered, hreread⟩ := hlegal
  rw [UInt64.le_iff_toNat_le] at hentered hreread
  have hrecord : (s.time.recordIdle (saturatingSub ticks' ticks)).idleTicks.toNat =
      s.time.idleTicks.toNat + (ticks'.toNat - ticks.toNat) := by
    have hlt := ticks'.toNat_lt
    rw [Time.recordIdle, UInt64.toNat_add, toNat_saturatingSub, Nat.mod_eq_of_lt (by omega)]
  constructor
  · exact inv.serviced
  · exact UInt64.le_refl _
  · rw [UInt64.le_iff_toNat_le, hrecord]
    change _ ≤ s.time.ticks.toNat
    omega
  · intro a ha
    obtain ⟨hidles, hbusy⟩ := inv.past a ha
    rw [hfloor] at hbusy
    constructor
    · rw [hrecord]
      omega
    · rw [hrecord]
      change _ ≤ s.time.ticks.toNat + _
      omega
  · exact inv.pairwise

theorem Inv.sampled (inv : Inv s) {uptimeNs : UInt64}
    {memoryRegions : Vector MemoryRegion maxMemoryRegions} {memoryRegionCount : Nat}
    (hmain : s.main = .counted uptimeNs memoryRegions memoryRegionCount ticks) :
    Inv { s with
      main := .running
      samples := s.samples ++
        [⟨uptimeNs, ticks, s.time.idleTicks, memoryRegions, memoryRegionCount⟩] } := by
  have hfloor : s.floor = ticks := by rw [Kernel.floor, hmain]; rfl
  have hle : s.floor ≤ s.time.ticks := inv.legal.floor_le
  constructor
  · exact inv.serviced
  · exact UInt64.le_refl _
  · exact UInt64.le_trans inv.idle_le hle
  · intro a ha
    rcases List.mem_append.mp ha with ha | ha
    · exact (inv.past a ha).of_le hle
    · rw [List.mem_singleton.mp ha, ← hfloor]
      exact ⟨Nat.le_refl _, by
        rw [UInt64.le_iff_toNat_le] at hle
        change _ ≤ s.time.ticks.toNat + _
        dsimp only
        omega⟩
  · rw [List.pairwise_append]
    refine ⟨inv.pairwise, List.pairwise_singleton _ _, fun a ha b hb => ?_⟩
    rw [List.mem_singleton.mp hb, ← hfloor]
    exact inv.past a ha

/-- An action is an interrupt, an access that moves neither counter nor floor, or the end of a
call. -/
theorem act_cases {a : Action} (h : s.act a = some s') :
    s' = { s with time := s.time.bumpTick, serviced := s.serviced + 1, main := s.main.wake } ∨
    (∃ main, s' = { s with main := main } ∧ main.floor s.time.ticks = s.floor ∧
      (s.main.Legal s.time.ticks → main.Legal s.time.ticks)) ∨
    (∃ enteredTicks ticks, s.main = .reread enteredTicks ticks ∧ s' = { s with
      time := s.time.recordIdle (saturatingSub ticks enteredTicks)
      main := .running }) ∨
    (∃ uptimeNs memoryRegions memoryRegionCount totalTicks,
      s.main = .counted uptimeNs memoryRegions memoryRegionCount totalTicks ∧ s' = { s with
        main := .running
        samples := s.samples ++
          [⟨uptimeNs, totalTicks, s.time.idleTicks, memoryRegions, memoryRegionCount⟩] }) := by
  cases a with
  | interrupt => exact .inl (Option.some.inj h).symm
  | waitForInterrupt =>
    cases hmain : s.main with
    | running =>
      simp only [Kernel.act, hmain, Option.some.injEq] at h
      exact .inr (.inl ⟨_, h.symm, by rw [Kernel.floor, hmain]; rfl, fun _ => UInt64.le_refl _⟩)
    | _ => simp [Kernel.act, hmain] at h
  | sample uptimeNs memoryRegions memoryRegionCount =>
    cases hmain : s.main with
    | running =>
      simp only [Kernel.act, hmain, Option.some.injEq] at h
      exact .inr (.inl ⟨_, h.symm, by rw [Kernel.floor, hmain]; rfl, fun _ => UInt64.le_refl _⟩)
    | _ => simp [Kernel.act, hmain] at h
  | proceed =>
    cases hmain : s.main with
    | running => simp [Kernel.act, hmain] at h
    | halted enteredTicks => simp [Kernel.act, hmain] at h
    | entered enteredTicks =>
      simp only [Kernel.act, hmain, Option.some.injEq] at h
      exact .inr (.inl ⟨_, h.symm, by rw [Kernel.floor, hmain]; rfl, id⟩)
    | woken enteredTicks =>
      simp only [Kernel.act, hmain, Option.some.injEq] at h
      exact .inr (.inl ⟨_, h.symm, by rw [Kernel.floor, hmain]; rfl,
        fun hle => ⟨hle, UInt64.le_refl _⟩⟩)
    | reread enteredTicks ticks =>
      simp only [Kernel.act, hmain, Option.some.injEq] at h
      exact .inr (.inr (.inl ⟨_, _, rfl, h.symm⟩))
    | counted uptimeNs memoryRegions memoryRegionCount totalTicks =>
      simp only [Kernel.act, hmain, Option.some.injEq] at h
      exact .inr (.inr (.inr ⟨_, _, _, _, rfl, h.symm⟩))

theorem serviced_le_of_act {a : Action} (h : s.act a = some s') : s.serviced ≤ s'.serviced := by
  obtain rfl | ⟨main, rfl, -⟩ | ⟨_, _, -, rfl⟩ | ⟨_, _, _, _, -, rfl⟩ := act_cases h
  · exact Nat.le_succ _
  all_goals exact Nat.le_refl _

theorem Inv.act {a : Action} (inv : Inv s) (h : s.act a = some s')
    (hlt : s'.serviced < 2 ^ 64) : Inv s' := by
  obtain rfl | ⟨main, rfl, hfloor, hlegal⟩ | ⟨_, _, hmain, rfl⟩ | ⟨_, _, _, _, hmain, rfl⟩ :=
    act_cases h
  · exact inv.interrupt hlt
  · exact inv.access (hlegal inv.legal) hfloor
  · exact inv.record hmain
  · exact inv.sampled hmain

theorem invariant : system.Invariant fun s => s.serviced < 2 ^ 64 → Inv s where
  init h _ := h ▸ Inv.start
  step inv h hlt := by
    obtain ⟨a, ha⟩ := h
    exact (inv (lt_of_le_of_lt (serviced_le_of_act ha) hlt)).act ha hlt

/-- Both differences are exact and the idle one is the smaller, so that nothing in the load
saturates. -/
def Unclamped (a b : MonitorSample) : Prop :=
  a.totalTicks ≤ b.totalTicks ∧ a.idleTicks ≤ b.idleTicks ∧ ∃ info m,
    MonitorModel.update ⟨some a⟩ b = .ok (info, m) ∧
      info.deltaTicks = b.totalTicks - a.totalTicks ∧
      info.deltaIdleTicks = b.idleTicks - a.idleTicks ∧ info.deltaIdleTicks ≤ info.deltaTicks ∧
      info.cpuLoadPercent.toNat = load info.deltaTicks.toNat info.deltaIdleTicks.toNat

structure Shared (s : Kernel) : Prop where
  ticks : s.time.ticks.toNat = s.serviced
  idle_le : s.time.idleTicks ≤ s.time.ticks
  samples : s.samples.Pairwise Unclamped

theorem Within.unclamped {a b : MonitorSample}
    (h : Within a.totalTicks a.idleTicks b.totalTicks b.idleTicks) : Unclamped a b := by
  obtain ⟨hidle, hbusy⟩ := h
  have htotal : a.totalTicks ≤ b.totalTicks := by
    rw [UInt64.le_iff_toNat_le]
    omega
  have hidle' : a.idleTicks ≤ b.idleTicks := UInt64.le_iff_toNat_le.mpr hidle
  obtain ⟨info, hupdate, hdisplays⟩ := MonitorModel.update_ok ⟨some a⟩ b
  have hticks : info.deltaTicks = b.totalTicks - a.totalTicks :=
    hdisplays.deltaTicks.trans (if_pos htotal)
  have hidles : info.deltaIdleTicks = b.idleTicks - a.idleTicks :=
    hdisplays.deltaIdleTicks.trans (if_pos hidle')
  refine ⟨htotal, hidle', info, _, hupdate, hticks, hidles, ?_, hdisplays.load⟩
  rw [hticks, hidles, UInt64.le_iff_toNat_le, UInt64.toNat_sub_of_le _ _ htotal,
    UInt64.toNat_sub_of_le _ _ hidle']
  omega

theorem idle_shared (h : system.Reachable s) (hlt : s.serviced < 2 ^ 64) : Shared s := by
  have inv := invariant.reachable h hlt
  exact ⟨inv.serviced, UInt64.le_trans inv.idle_le inv.legal.floor_le,
    inv.pairwise.imp Within.unclamped⟩

def slept : List Action :=
  [.sample 0 (.replicate _ ⟨0, 0, .usable⟩) 0, .proceed, .waitForInterrupt, .interrupt, .proceed,
    .interrupt, .interrupt, .proceed, .interrupt, .proceed,
    .sample 5000000 (.replicate _ ⟨0, 0, .usable⟩) 0, .interrupt, .proceed]

theorem idle_shared_slept :
    ∃ s, slept.foldlM Kernel.act .start = some s ∧ s.time = ⟨5, 3⟩ ∧ Shared s :=
  ⟨⟨⟨5, 3⟩, 5, .running, [⟨0, 0, 0, .replicate _ ⟨0, 0, .usable⟩, 0⟩,
    ⟨5000000, 4, 3, .replicate _ ⟨0, 0, .usable⟩, 0⟩]⟩, rfl, rfl,
    idle_shared (.schedule (l := slept) (fun _ a _ h => ⟨a, h⟩) (.init rfl) rfl) (by decide)⟩

end FerricK.Idle
