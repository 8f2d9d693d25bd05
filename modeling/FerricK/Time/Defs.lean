import FerricK.Lib.Rust

namespace FerricK

open Rust

/-- The statics `TICKS` and `IDLE_TICKS`; `fetch_add` wraps. -/
structure Time where
  ticks : UInt64
  idleTicks : UInt64
  deriving DecidableEq

namespace Time

def new : Time where
  ticks := 0
  idleTicks := 0

def bumpTick (t : Time) : Time := { t with ticks := t.ticks + 1 }

def recordIdle (t : Time) (delta : UInt64) : Time := { t with idleTicks := t.idleTicks + delta }

def nanosPerSec : UInt64 := 1000000000

def ticksToNs (ticks freqHz : UInt64) : Rust UInt64 := do
  let scaled ← umul 128 ticks.toNat nanosPerSec.toNat
  return .ofNat (← udiv scaled freqHz.toNat)

end Time

namespace Pit

def pitOscillatorHz : UInt64 := 1193182
def timerDivisor : UInt16 := 1193

def pitTicksToNs (ticks : UInt64) : Rust UInt64 := do
  let nanos ← umul 128 ticks.toNat Time.nanosPerSec.toNat
  let scaled ← umul 128 nanos timerDivisor.toNat
  return .ofNat (← udiv scaled pitOscillatorHz.toNat)

end Pit

structure TimeOfDay where
  hours : UInt8
  minutes : UInt8
  seconds : UInt8
  deriving DecidableEq

namespace Clock

def secondsPerMinute : UInt64 := 60
def secondsPerHour : UInt64 := 3600
def secondsPerDay : UInt64 := 86400

def fromUptimeNs (ns : UInt64) : TimeOfDay :=
  let secs := ns / Time.nanosPerSec % secondsPerDay
  { hours := (secs / secondsPerHour).toUInt8
    minutes := (secs % secondsPerHour / secondsPerMinute).toUInt8
    seconds := (secs % secondsPerMinute).toUInt8 }

end Clock

def Shell.uptime (ns : UInt64) : UInt64 × UInt64 :=
  (ns / Time.nanosPerSec, ns % Time.nanosPerSec / 1000000)

end FerricK
