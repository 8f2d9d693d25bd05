import FerricK.Monitor.Load
import Mathlib.Algebra.BigOperators.Group.List.Basic
import Mathlib.Data.List.Induction

namespace FerricK

open Rust

namespace Memmap

structure MemmapEntry where
  base : UInt64
  length : UInt64
  entryType : UInt64

namespace MemmapEntry

def kind (entryType : UInt64) : MemoryRegionKind :=
  match entryType.toNat with
  | 0 => .usable
  | 1 => .reserved
  | 2 => .acpiReclaimable
  | 3 => .acpiNvs
  | 4 => .badMemory
  | 5 => .bootloaderReclaimable
  | 6 => .executableAndModules
  | 7 => .framebuffer
  | 8 => .reservedMapped
  | _ => .unknown entryType

def toRegion (e : MemmapEntry) : MemoryRegion where
  base := e.base
  length := e.length
  kind := kind e.entryType

end MemmapEntry

end Memmap

/-- `entries` are `memmap_entries()`, the rest what `uptime_ns`, `ticks` and `idle_ticks` return. -/
def ArchMonitor.sample (entries : Option (List Memmap.MemmapEntry))
    (uptimeNs totalTicks idleTicks : UInt64) : MonitorSample :=
  let found := entries.getD []
  let count := min found.length maxMemoryRegions
  { uptimeNs := uptimeNs
    totalTicks := totalTicks
    idleTicks := idleTicks
    memoryRegions := fill ⟨0, 0, .unknown 0⟩
      ((found.take count).map Memmap.MemmapEntry.toRegion) maxMemoryRegions
    memoryRegionCount := count }

namespace Memmap

def bytes (entries : List MemmapEntry) : Nat := (entries.map (·.length.toNat)).sum

def usable (entries : List MemmapEntry) : List MemmapEntry := entries.filter (·.entryType = 0)
def reserved (entries : List MemmapEntry) : List MemmapEntry := entries.filter (·.entryType = 1)

def other (entries : List MemmapEntry) : List MemmapEntry :=
  entries.filter fun e => e.entryType ≠ 0 ∧ e.entryType ≠ 1

structure Totals (s : MemorySummary) (entries : List MemmapEntry) : Prop where
  usableBytes : s.usableBytes.toNat = bytes (usable entries)
  reservedBytes : s.reservedBytes.toNat = bytes (reserved entries)
  otherBytes : s.otherBytes.toNat = bytes (other entries)

variable {entries : List MemmapEntry} {e : MemmapEntry} {s : MemorySummary}

@[simp] theorem bytes_append (l r : List MemmapEntry) : bytes (l ++ r) = bytes l + bytes r := by
  simp [bytes]

theorem bytes_concat (l : List MemmapEntry) (e : MemmapEntry) :
    bytes (l ++ [e]) = bytes l + e.length.toNat := by
  simp [bytes]

theorem bytes_filter_concat (p : MemmapEntry → Bool) (l : List MemmapEntry) (e : MemmapEntry) :
    bytes ((l ++ [e]).filter p) = bytes (l.filter p) + if p e then e.length.toNat else 0 := by
  rw [List.filter_append, List.filter_singleton, bytes_append]
  cases p e <;> simp [bytes]

theorem bytes_usable_concat (l : List MemmapEntry) (e : MemmapEntry) :
    bytes (usable (l ++ [e])) =
      bytes (usable l) + if e.entryType = 0 then e.length.toNat else 0 := by
  simp only [usable, bytes_filter_concat, decide_eq_true_eq]

theorem bytes_reserved_concat (l : List MemmapEntry) (e : MemmapEntry) :
    bytes (reserved (l ++ [e])) =
      bytes (reserved l) + if e.entryType = 1 then e.length.toNat else 0 := by
  simp only [reserved, bytes_filter_concat, decide_eq_true_eq]

theorem bytes_other_concat (l : List MemmapEntry) (e : MemmapEntry) :
    bytes (other (l ++ [e])) =
      bytes (other l) + if e.entryType ≠ 0 ∧ e.entryType ≠ 1 then e.length.toNat else 0 := by
  simp only [other, bytes_filter_concat, decide_eq_true_eq]

theorem bytes_classes (entries : List MemmapEntry) :
    bytes (usable entries) + bytes (reserved entries) + bytes (other entries) = bytes entries := by
  induction entries using List.reverseRecOn with
  | nil => rfl
  | append_singleton entries e ih =>
    rw [bytes_usable_concat, bytes_reserved_concat, bytes_other_concat, bytes_concat, ← ih]
    by_cases h0 : e.entryType = 0
    · simp [h0]
      omega
    · by_cases h1 : e.entryType = 1
      · simp [h1]
        omega
      · simp [h0, h1]
        omega

theorem kind_eq_usable {entryType : UInt64} :
    MemmapEntry.kind entryType = .usable ↔ entryType = 0 := by
  rw [← UInt64.toNat_inj, MemmapEntry.kind]
  split <;> simp_all

theorem kind_eq_reserved {entryType : UInt64} :
    MemmapEntry.kind entryType = .reserved ↔ entryType = 1 := by
  rw [← UInt64.toNat_inj, MemmapEntry.kind]
  split <;> simp_all

theorem add_eq (s : MemorySummary) (r : MemoryRegion) : s.add r =
    if r.kind = .usable then { s with usableBytes := saturatingAdd s.usableBytes r.length }
    else if r.kind = .reserved then
      { s with reservedBytes := saturatingAdd s.reservedBytes r.length }
    else { s with otherBytes := saturatingAdd s.otherBytes r.length } := by
  obtain ⟨base, length, kind⟩ := r
  cases kind <;> rfl

theorem Totals.add (h : Totals s entries) (hlt : bytes (entries ++ [e]) < 2 ^ 64) :
    Totals (s.add e.toRegion) (entries ++ [e]) := by
  obtain ⟨husable, hreserved, hother⟩ := h
  have hclasses := bytes_classes entries
  rw [bytes_concat] at hlt
  have hkind : e.toRegion.kind = MemmapEntry.kind e.entryType := rfl
  have hlength : e.toRegion.length = e.length := rfl
  rw [add_eq, hkind, hlength, if_congr kind_eq_usable rfl
    (if_congr kind_eq_reserved rfl rfl)]
  constructor
  · rw [bytes_usable_concat]
    by_cases h0 : e.entryType = 0
    · simp only [h0, if_true]
      rw [toNat_saturatingAdd (by omega), husable]
    · by_cases h1 : e.entryType = 1 <;> simp [h0, h1, husable]
  · rw [bytes_reserved_concat]
    by_cases h0 : e.entryType = 0
    · simp [h0, hreserved]
    · by_cases h1 : e.entryType = 1
      · simp only [h1]
        simp [toNat_saturatingAdd (a := s.reservedBytes) (b := e.length) (by omega), hreserved]
      · simp [h0, h1, hreserved]
  · rw [bytes_other_concat]
    by_cases h0 : e.entryType = 0
    · simp [h0, hother]
    · by_cases h1 : e.entryType = 1
      · simp [h1, hother]
      · simp only [h0, h1, if_false, ne_eq, not_false_eq_true, and_self, if_true]
        rw [toNat_saturatingAdd (by omega), hother]

theorem totals (entries : List MemmapEntry) (hlt : bytes entries < 2 ^ 64) :
    Totals ((entries.map MemmapEntry.toRegion).foldl .add .default) entries := by
  induction entries using List.reverseRecOn with
  | nil => exact ⟨rfl, rfl, rfl⟩
  | append_singleton entries e ih =>
    have hbefore : bytes entries < 2 ^ 64 := by
      rw [bytes_concat] at hlt
      omega
    rw [List.map_append, List.foldl_append]
    exact (ih hbefore).add hlt

theorem regions_sample (entries : List MemmapEntry) (uptimeNs totalTicks idleTicks : UInt64) :
    (ArchMonitor.sample (some entries) uptimeNs totalTicks idleTicks).regions =
      (entries.take maxMemoryRegions).map MemmapEntry.toRegion := by
  have htake : entries.take (min entries.length maxMemoryRegions) =
      entries.take maxMemoryRegions := by
    rw [Nat.min_comm, ← List.take_take, List.take_length]
  have hlength : ((entries.take maxMemoryRegions).map MemmapEntry.toRegion).length =
      min (min entries.length maxMemoryRegions) maxMemoryRegions := by
    rw [List.length_map, List.length_take]
    omega
  simp only [MonitorSample.regions, ArchMonitor.sample, Option.getD_some, htake]
  rw [← hlength, take_fill (by rw [hlength]; exact Nat.min_le_right _ _)]

theorem Totals.append {l r : List MemmapEntry} (h : Totals s l) (hzero : bytes r = 0) :
    Totals s (l ++ r) := by
  obtain ⟨husable, hreserved, hother⟩ := h
  have hclasses := bytes_classes r
  have happend : ∀ p : MemmapEntry → Bool,
      bytes ((l ++ r).filter p) = bytes (l.filter p) + bytes (r.filter p) := by
    intro p
    rw [List.filter_append, bytes_append]
  constructor
  · rw [husable, usable, usable, happend, ← usable, ← usable]
    omega
  · rw [hreserved, reserved, reserved, happend, ← reserved, ← reserved]
    omega
  · rw [hother, other, other, happend, ← other, ← other]
    omega

theorem summary_covers_first (m : MonitorModel) (entries : List MemmapEntry)
    (uptimeNs totalTicks idleTicks : UInt64) (h : bytes entries < 2 ^ 64) :
    ∃ info m', m.update (ArchMonitor.sample (some entries) uptimeNs totalTicks idleTicks) =
        .ok (info, m') ∧
      Totals info.memorySummary (entries.take maxMemoryRegions) ∧
      (Totals info.memorySummary entries ∧ info.memorySummary.usableBytes.toNat +
          info.memorySummary.reservedBytes.toNat + info.memorySummary.otherBytes.toNat =
            bytes entries ↔
        bytes (entries.drop maxMemoryRegions) = 0) := by
  obtain ⟨info, hupdate, hdisplays⟩ :=
    m.update_ok (ArchMonitor.sample (some entries) uptimeNs totalTicks idleTicks)
  have hsplit : bytes entries =
      bytes (entries.take maxMemoryRegions) + bytes (entries.drop maxMemoryRegions) := by
    rw [← bytes_append, List.take_append_drop]
  have htotals : Totals info.memorySummary (entries.take maxMemoryRegions) := by
    rw [hdisplays.memorySummary, regions_sample]
    exact totals _ (by omega)
  refine ⟨info, _, hupdate, htotals, ?_, ?_⟩
  · rintro ⟨-, hsum⟩
    have hclasses := bytes_classes (entries.take maxMemoryRegions)
    rw [htotals.usableBytes, htotals.reservedBytes, htotals.otherBytes] at hsum
    omega
  · intro hzero
    have hall := htotals.append hzero
    rw [List.take_append_drop] at hall
    exact ⟨hall, by rw [hall.usableBytes, hall.reservedBytes, hall.otherBytes, bytes_classes]⟩

theorem summary_covers_first_small : ∃ info m', MonitorModel.new.update
      (ArchMonitor.sample (some [⟨0, 4096, 0⟩, ⟨4096, 4096, 5⟩]) 0 0 0) = .ok (info, m') ∧
    Totals info.memorySummary [⟨0, 4096, 0⟩, ⟨4096, 4096, 5⟩] := by
  obtain ⟨info, m', hupdate, -, hall⟩ := summary_covers_first .new
    [⟨0, 4096, 0⟩, ⟨4096, 4096, 5⟩] 0 0 0 (by decide)
  exact ⟨info, m', hupdate, (hall.mpr rfl).1⟩

def everyOther (n : Nat) : List MemmapEntry :=
  (List.range n).map fun i => ⟨UInt64.ofNat (8192 * i), 4096, 0⟩

theorem last_entry_dropped : ∃ info m', MonitorModel.new.update
      (ArchMonitor.sample (some (everyOther 33)) 0 0 0) = .ok (info, m') ∧
    info.memorySummary.usableBytes = 32 * 4096 ∧ bytes (usable (everyOther 33)) = 33 * 4096 :=
  ⟨_, _, rfl, by decide +kernel, by decide +kernel⟩

end Memmap

end FerricK
