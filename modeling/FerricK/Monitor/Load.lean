import FerricK.Lib.Bytes
import FerricK.Monitor.Defs
import Mathlib.Algebra.Order.Group.Unbundled.Int
import Mathlib.Tactic.Ring

namespace FerricK

open Rust

/-- `p` is the share of `dt` that is not in `di`, as the nearest percentage. -/
structure Nearest (dt di p : Nat) : Prop where
  zero : dt = 0 → p = 0
  le : p ≤ 100
  near : 0 < dt → |(p * dt : Int) - 100 * max ((dt : Int) - di) 0| * 2 ≤ dt

def load (dt di : Nat) : Nat := ((dt - di) * 100 + dt / 2) / dt

variable {dt di di' : Nat} {m : MonitorModel} {samples : List MonitorSample}

theorem load_le (dt di : Nat) : load dt di ≤ 100 := by
  rcases Nat.eq_zero_or_pos dt with rfl | hpos
  · rw [load, Nat.div_zero]
    exact Nat.zero_le _
  · rw [load, Nat.div_le_iff_le_mul_add_pred hpos]
    omega

theorem load_anti (h : di ≤ di') : load dt di' ≤ load dt di := by
  apply Nat.div_le_div_right
  omega

theorem nearest_load (dt di : Nat) : Nearest dt di (load dt di) where
  zero h := by rw [h, load, Nat.div_zero]
  le := load_le dt di
  near hpos := by
    have hdiv := Nat.div_add_mod ((dt - di) * 100 + dt / 2) dt
    have hmod := Nat.mod_lt ((dt - di) * 100 + dt / 2) hpos
    rw [← load, Nat.mul_comm dt] at hdiv
    have hmax : max ((dt : Int) - di) 0 = (dt - di : Nat) := by omega
    have hcast : ((load dt di : Int) * dt) = (load dt di * dt : Nat) := by push_cast; rfl
    rw [hmax, hcast]
    rcases abs_cases (((load dt di * dt : Nat) : Int) - 100 * (dt - di : Nat)) with h | h <;> omega

theorem cpuLoadPercent_eq (deltaTicks deltaIdleTicks : UInt64) :
    cpuLoadPercent deltaTicks deltaIdleTicks =
      .ok (.ofNat (load deltaTicks.toNat deltaIdleTicks.toNat)) := by
  have hlt := deltaTicks.toNat_lt
  unfold cpuLoadPercent
  by_cases hzero : deltaTicks = 0
  · rw [if_pos hzero, hzero, UInt64.toNat_zero, load, Nat.div_zero]
    rfl
  · have hle := load_le deltaTicks.toNat deltaIdleTicks.toNat
    simp only [if_neg hzero, toNat_saturatingSub]
    rw [umul_of_lt (by omega), ok_bind, uadd_of_lt (by omega), ok_bind,
      udiv_of_pos (toNat_pos hzero), ok_bind, ← load, Nat.min_eq_left hle]
    rfl

theorem toNat_load (dt di : Nat) : (UInt8.ofNat (load dt di)).toNat = load dt di := by
  have hle := load_le dt di
  rw [UInt8.toNat_ofNat', Nat.mod_eq_of_lt (by omega)]

namespace MonitorModel

def updates : MonitorModel → List MonitorSample → Rust (List DisplayInfo)
  | _, [] => return []
  | m, sample :: samples => do
    let (info, m) ← m.update sample
    return info :: (← m.updates samples)

def since (field : MonitorSample → UInt64) (before : List MonitorSample) (s : MonitorSample) :
    Nat :=
  before.getLast?.elim 0 fun prev => (field s).toNat - (field prev).toNat

structure Displays (m : MonitorModel) (s : MonitorSample) (info : DisplayInfo) : Prop where
  uptimeSeconds : info.uptimeSeconds = s.uptimeNs / nanosPerSec
  deltaTicks : info.deltaTicks = m.delta (·.totalTicks) s
  deltaIdleTicks : info.deltaIdleTicks = m.delta (·.idleTicks) s
  load : info.cpuLoadPercent.toNat = FerricK.load info.deltaTicks.toNat info.deltaIdleTicks.toNat
  memorySummary : info.memorySummary = s.regions.foldl .add .default

theorem update_ok (m : MonitorModel) (s : MonitorSample) :
    ∃ info, m.update s = .ok (info, ⟨some s⟩) ∧ m.Displays s info := by
  have htake : s.regions.take (min s.memoryRegionCount maxMemoryRegions) = s.regions :=
    List.take_of_length_le (List.length_take_le _ _)
  simp only [update, compute, cpuLoadPercent_eq, ok_bind, htake, pure_eq_ok]
  exact ⟨_, rfl, rfl, rfl, rfl, toNat_load _ _, rfl⟩

theorem toNat_delta (before : List MonitorSample) (field : MonitorSample → UInt64)
    (s : MonitorSample) : (delta ⟨before.getLast?⟩ field s).toNat = since field before s := by
  rw [delta, since]
  cases before.getLast? with
  | none => rfl
  | some prev => exact toNat_saturatingSub _ _

theorem updates_ok (before samples : List MonitorSample) :
    ∃ infos, updates ⟨before.getLast?⟩ samples = .ok infos ∧
      ∀ l s r, samples = l ++ s :: r →
        ∃ info, infos[l.length]? = some info ∧ Displays ⟨(before ++ l).getLast?⟩ s info := by
  induction samples generalizing before with
  | nil => exact ⟨[], rfl, fun l s r h => by simp at h⟩
  | cons s samples ih =>
    obtain ⟨info, hupdate, hdisplays⟩ := update_ok ⟨before.getLast?⟩ s
    obtain ⟨infos, hupdates, hinfos⟩ := ih (before ++ [s])
    rw [List.getLast?_concat] at hupdates
    refine ⟨info :: infos, by simp [updates, hupdate, hupdates], ?_⟩
    rintro l s' r heq
    cases l with
    | nil =>
      obtain rfl := List.head_eq_of_cons_eq heq
      rw [List.append_nil]
      exact ⟨info, rfl, hdisplays⟩
    | cons first l =>
      obtain ⟨rfl, hrest⟩ := List.cons.inj heq
      have hlast := hinfos l s' r hrest
      rwa [List.append_assoc, List.singleton_append] at hlast

theorem loads_nearest (samples : List MonitorSample) :
    (∃ infos, new.updates samples = .ok infos ∧ ∀ before s after,
      samples = before ++ s :: after → ∃ info, infos[before.length]? = some info ∧
        info.deltaTicks.toNat = since (·.totalTicks) before s ∧
        info.deltaIdleTicks.toNat = since (·.idleTicks) before s ∧
        Nearest (since (·.totalTicks) before s) (since (·.idleTicks) before s)
          info.cpuLoadPercent.toNat) ∧
      ∀ dt di di', di ≤ di' → ∃ p p', cpuLoadPercent dt di = .ok p ∧
        cpuLoadPercent dt di' = .ok p' ∧ p' ≤ p := by
  constructor
  · obtain ⟨infos, hupdates, hinfos⟩ := updates_ok [] samples
    refine ⟨infos, hupdates, fun before s after heq => ?_⟩
    obtain ⟨info, hinfo, hdisplays⟩ := hinfos before s after heq
    rw [List.nil_append] at hdisplays
    have hticks : info.deltaTicks.toNat = since (·.totalTicks) before s := by
      rw [hdisplays.deltaTicks, toNat_delta]
    have hidle : info.deltaIdleTicks.toNat = since (·.idleTicks) before s := by
      rw [hdisplays.deltaIdleTicks, toNat_delta]
    refine ⟨info, hinfo, hticks, hidle, ?_⟩
    rw [hdisplays.load, hticks, hidle]
    exact nearest_load _ _
  · intro dt di di' hle
    refine ⟨_, _, cpuLoadPercent_eq dt di, cpuLoadPercent_eq dt di', ?_⟩
    rw [UInt8.le_iff_toNat_le, toNat_load, toNat_load]
    exact load_anti (UInt64.le_iff_toNat_le.mp hle)

end MonitorModel

end FerricK
