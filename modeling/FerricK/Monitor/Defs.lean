import FerricK.Lib.Rust
import Mathlib.Data.List.Basic

namespace FerricK

open Rust

inductive MemoryRegionKind
  | usable
  | reserved
  | acpiReclaimable
  | acpiNvs
  | badMemory
  | bootloaderReclaimable
  | executableAndModules
  | framebuffer
  | reservedMapped
  | unknown (entryType : UInt64)
  deriving DecidableEq

structure MemoryRegion where
  base : UInt64
  length : UInt64
  kind : MemoryRegionKind
  deriving DecidableEq

/-- The end address, one past the last; `base.wrapping_add(length)`. -/
def MemoryRegion.end (r : MemoryRegion) : UInt64 := r.base + r.length

def maxMemoryRegions : Nat := 32

def fill (init : α) (l : List α) (n : Nat) : Vector α n := Vector.ofFn fun i => l.getD i init

theorem take_fill {init : α} {l : List α} (h : l.length ≤ n) :
    (fill init l n).toList.take l.length = l := by
  apply List.ext_getElem
  · simp [h]
  · intro i _ hi
    simp [fill, hi]

structure MonitorSample where
  uptimeNs : UInt64
  totalTicks : UInt64
  idleTicks : UInt64
  memoryRegions : Vector MemoryRegion maxMemoryRegions
  memoryRegionCount : Nat
  deriving DecidableEq

def MonitorSample.regions (s : MonitorSample) : List MemoryRegion :=
  s.memoryRegions.toList.take (min s.memoryRegionCount maxMemoryRegions)

structure RegionView where
  start : UInt64
  stop : UInt64
  kind : MemoryRegionKind
  size : UInt64
  deriving DecidableEq

def RegionView.of (r : MemoryRegion) : RegionView where
  start := r.base
  stop := r.end
  kind := r.kind
  size := r.length

structure MemorySummary where
  usableBytes : UInt64
  reservedBytes : UInt64
  otherBytes : UInt64
  deriving DecidableEq

namespace MemorySummary

def default : MemorySummary where
  usableBytes := 0
  reservedBytes := 0
  otherBytes := 0

def add (s : MemorySummary) (r : MemoryRegion) : MemorySummary :=
  match r.kind with
  | .usable => { s with usableBytes := saturatingAdd s.usableBytes r.length }
  | .reserved => { s with reservedBytes := saturatingAdd s.reservedBytes r.length }
  | _ => { s with otherBytes := saturatingAdd s.otherBytes r.length }

end MemorySummary

structure DisplayInfo where
  uptimeSeconds : UInt64
  deltaSeconds : UInt64
  cpuLoadPercent : UInt8
  totalTicks : UInt64
  deltaTicks : UInt64
  deltaIdleTicks : UInt64
  memorySummary : MemorySummary
  regions : Vector RegionView maxMemoryRegions
  regionCount : Nat
  deriving DecidableEq

def nanosPerSec : UInt64 := 1000000000

/-- The intermediate values are `u128`s. -/
def cpuLoadPercent (deltaTicks deltaIdleTicks : UInt64) : Rust UInt8 :=
  if deltaTicks = 0 then return 0
  else do
    let busy := saturatingSub deltaTicks deltaIdleTicks
    let scaled ← umul 128 busy.toNat 100
    let rounded ← uadd 128 scaled (deltaTicks.toNat / 2)
    let percent ← udiv rounded deltaTicks.toNat
    return .ofNat (min percent 100)

structure MonitorModel where
  previous : Option MonitorSample

namespace MonitorModel

def new : MonitorModel where
  previous := none

def delta (m : MonitorModel) (field : MonitorSample → UInt64) (sample : MonitorSample) : UInt64 :=
  match m.previous with
  | some prev => saturatingSub (field sample) (field prev)
  | none => 0

def compute (m : MonitorModel) (sample : MonitorSample) : Rust DisplayInfo := do
  let deltaSeconds := m.delta (·.uptimeNs) sample / nanosPerSec
  let deltaTicks := m.delta (·.totalTicks) sample
  let deltaIdleTicks := m.delta (·.idleTicks) sample
  let regionCount := min sample.memoryRegionCount maxMemoryRegions
  let regions := sample.regions.take regionCount
  let cpuLoadPercent ← cpuLoadPercent deltaTicks deltaIdleTicks
  return {
    uptimeSeconds := sample.uptimeNs / nanosPerSec
    deltaSeconds := deltaSeconds
    cpuLoadPercent := cpuLoadPercent
    totalTicks := sample.totalTicks
    deltaTicks := deltaTicks
    deltaIdleTicks := deltaIdleTicks
    memorySummary := regions.foldl .add .default
    regions := fill ⟨0, 0, .unknown 0, 0⟩ (regions.map .of) maxMemoryRegions
    regionCount := regionCount }

def update (m : MonitorModel) (sample : MonitorSample) : Rust (DisplayInfo × MonitorModel) := do
  return (← m.compute sample, { previous := some sample })

end MonitorModel

end FerricK
