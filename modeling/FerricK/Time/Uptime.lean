import FerricK.Monitor.Load
import FerricK.Time.Defs

namespace FerricK.Time

open Rust

structure ReadOuts (ns : UInt64) (seconds : Nat) : Prop where
  shell : (Shell.uptime ns).1.toNat = seconds
  monitor : ∀ (m : MonitorModel) (s : MonitorSample), s.uptimeNs = ns →
    ∃ info m', m.update s = .ok (info, m') ∧ info.uptimeSeconds.toNat = seconds
  hours_lt : (Clock.fromUptimeNs ns).hours.toNat < 24
  minutes_lt : (Clock.fromUptimeNs ns).minutes.toNat < 60
  seconds_lt : (Clock.fromUptimeNs ns).seconds.toNat < 60
  clock : (Clock.fromUptimeNs ns).hours.toNat * 3600 + (Clock.fromUptimeNs ns).minutes.toNat * 60 +
    (Clock.fromUptimeNs ns).seconds.toNat = seconds % 86400

/-- Where its exact result fits in 64 bits, a conversion of ticks is exact, its read-outs show
`seconds`, and neither goes down. -/
structure Exact (toNs : UInt64 → Rust UInt64) (exact seconds : Nat → Nat) : Prop where
  reads : ∀ t, exact t.toNat < 2 ^ 64 →
    ∃ ns, toNs t = .ok ns ∧ ns.toNat = exact t.toNat ∧ ReadOuts ns (seconds t.toNat)
  mono : ∀ t t', t ≤ t' → exact t'.toNat < 2 ^ 64 → ∃ ns ns', toNs t = .ok ns ∧
    toNs t' = .ok ns' ∧ ns ≤ ns' ∧ seconds t.toNat ≤ seconds t'.toNat

theorem readOuts (ns : UInt64) : ReadOuts ns (ns.toNat / 10 ^ 9) := by
  have hsecond : (ns / nanosPerSec).toNat = ns.toNat / 10 ^ 9 := UInt64.toNat_div _ _
  have hsecs : (ns / nanosPerSec % Clock.secondsPerDay).toNat = ns.toNat / 10 ^ 9 % 86400 := by
    rw [UInt64.toNat_mod, hsecond]
    rfl
  have hhours : (Clock.fromUptimeNs ns).hours.toNat = ns.toNat / 10 ^ 9 % 86400 / 3600 := by
    have hdiv : (ns / nanosPerSec % Clock.secondsPerDay / Clock.secondsPerHour).toNat =
        ns.toNat / 10 ^ 9 % 86400 / 3600 := by
      rw [UInt64.toNat_div, hsecs]
      rfl
    rw [Clock.fromUptimeNs, UInt64.toNat_toUInt8, hdiv]
    omega
  have hminutes : (Clock.fromUptimeNs ns).minutes.toNat =
      ns.toNat / 10 ^ 9 % 86400 % 3600 / 60 := by
    have hdiv : (ns / nanosPerSec % Clock.secondsPerDay % Clock.secondsPerHour /
        Clock.secondsPerMinute).toNat = ns.toNat / 10 ^ 9 % 86400 % 3600 / 60 := by
      rw [UInt64.toNat_div, UInt64.toNat_mod, hsecs]
      rfl
    rw [Clock.fromUptimeNs, UInt64.toNat_toUInt8, hdiv]
    omega
  have hseconds : (Clock.fromUptimeNs ns).seconds.toNat = ns.toNat / 10 ^ 9 % 86400 % 60 := by
    have hmod : (ns / nanosPerSec % Clock.secondsPerDay % Clock.secondsPerMinute).toNat =
        ns.toNat / 10 ^ 9 % 86400 % 60 := by
      rw [UInt64.toNat_mod, hsecs]
      rfl
    rw [Clock.fromUptimeNs, UInt64.toNat_toUInt8, hmod]
    omega
  constructor
  · exact hsecond
  · rintro m s rfl
    obtain ⟨info, hupdate, hdisplays⟩ := m.update_ok s
    exact ⟨info, _, hupdate, by rw [hdisplays.uptimeSeconds]; exact hsecond⟩
  · omega
  · omega
  · omega
  · omega

theorem nanos_div (n d : Nat) : n * 10 ^ 9 / d / 10 ^ 9 = n / d := by
  rw [Nat.div_div_eq_div_mul, Nat.mul_div_mul_right n d (by decide)]

theorem exact_of_eq {toNs : UInt64 → Rust UInt64} {exact seconds : Nat → Nat}
    (heq : ∀ t, toNs t = .ok (.ofNat (exact t.toNat)))
    (hseconds : ∀ t, exact t / 10 ^ 9 = seconds t) (hmono : Monotone exact) :
    Exact toNs exact seconds where
  reads t hlt := by
    have hns : (UInt64.ofNat (exact t.toNat)).toNat = exact t.toNat :=
      UInt64.toNat_ofNat_of_lt' hlt
    have hreads := readOuts (.ofNat (exact t.toNat))
    rw [hns, hseconds] at hreads
    exact ⟨_, heq t, hns, hreads⟩
  mono t t' hle hlt := by
    have hexact : exact t.toNat ≤ exact t'.toNat := hmono (UInt64.le_iff_toNat_le.mp hle)
    refine ⟨_, _, heq t, heq t', ?_, ?_⟩
    · rw [UInt64.le_iff_toNat_le, UInt64.toNat_ofNat_of_lt' hlt,
        UInt64.toNat_ofNat_of_lt' (lt_of_le_of_lt hexact hlt)]
      exact hexact
    · rw [← hseconds, ← hseconds]
      exact Nat.div_le_div_right hexact

theorem ticksToNs_eq {freqHz : UInt64} (h : freqHz ≠ 0) (t : UInt64) :
    ticksToNs t freqHz = .ok (.ofNat (t.toNat * 10 ^ 9 / freqHz.toNat)) := by
  have hlt := t.toNat_lt
  have hnanos : nanosPerSec.toNat = 10 ^ 9 := rfl
  rw [ticksToNs, hnanos, umul_of_lt (by omega), ok_bind, udiv_of_pos (toNat_pos h)]
  rfl

theorem pitTicksToNs_eq (t : UInt64) :
    Pit.pitTicksToNs t = .ok (.ofNat (t.toNat * 10 ^ 9 * 1193 / 1193182)) := by
  have hlt := t.toNat_lt
  have hnanos : nanosPerSec.toNat = 10 ^ 9 := rfl
  have hdivisor : Pit.timerDivisor.toNat = 1193 := rfl
  have hhz : Pit.pitOscillatorHz.toNat = 1193182 := rfl
  rw [Pit.pitTicksToNs, hnanos, hdivisor, hhz, umul_of_lt (by omega), ok_bind,
    umul_of_lt (by omega), ok_bind, udiv_of_pos (by decide)]
  rfl

theorem uptime_exact :
    (∀ freqHz : UInt64, freqHz ≠ 0 → Exact (ticksToNs · freqHz)
      (fun t => t * 10 ^ 9 / freqHz.toNat) (fun t => t / freqHz.toNat)) ∧
    Exact Pit.pitTicksToNs (fun t => t * 10 ^ 9 * 1193 / 1193182)
      (fun t => t * 1193 / 1193182) := by
  constructor
  · intro freqHz hfreq
    apply exact_of_eq (ticksToNs_eq hfreq) (fun t => nanos_div t _)
    intro t t' hle
    exact Nat.div_le_div_right (Nat.mul_le_mul_right _ hle)
  · apply exact_of_eq pitTicksToNs_eq
    · intro t
      rw [Nat.mul_right_comm]
      exact nanos_div _ _
    · intro t t' hle
      exact Nat.div_le_div_right (Nat.mul_le_mul_right _ (Nat.mul_le_mul_right _ hle))

end FerricK.Time
