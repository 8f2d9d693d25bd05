import FerricK.Lib.Rust
import FerricK.Mmu

namespace FerricK.Mmu

open Stage1

def insertAt (mem : Memory) (top l1 va physBase : BitVec 64) :
    Except InsertBlockError Unit × Memory :=
  if physBase % block2Mib ≠ 0 then (.error .misaligned, mem)
  else
    let topEntry := mem top (l0Index va)
    if topEntry &&& valid = 0 then (.error .topInvalid, mem)
    else if topEntry &&& tableOrPage = 0 then (.error .topNotTable, mem)
    else
      let idx := l1Index va
      if mem l1 idx &&& valid ≠ 0 then (.error .occupied, mem)
      else (.ok (), write mem l1 idx (blockDescriptor2m physBase))

def uart0Base : BitVec 64 := 0x09000000

/-- The tables are reached through the direct map at `hhdmOffset`; memory goes by the physical
addresses of the tables.  The barriers and the invalidation change no table. -/
def mapUartWindow (hhdmOffset ttbr1 : BitVec 64) (mem : Memory) : Rust (Bool × Memory) :=
  if hhdmOffset.toNat + uart0Base.toNat ≥ 2 ^ 64 then .error .overflow
  else
    let va := hhdmOffset + uart0Base
    let l0Phys := ttbr1 &&& outAddrMask
    if l0Phys = 0 then return (false, mem)
    else
      let topEntry := mem l0Phys (l0Index va)
      if topEntry &&& valid = 0 ∨ topEntry &&& tableOrPage = 0 then return (false, mem)
      else
        let l1 := topEntry &&& outAddrMask
        match insertAt mem l0Phys l1 va uart0Base with
        | (.ok (), mem) => return (true, mem)
        | (.error .occupied, mem) =>
          return (mem l1 (l1Index va) = blockDescriptor2m uart0Base, mem)
        | (.error _, mem) => return (false, mem)

def slotTable (mem : Memory) (top va : BitVec 64) : BitVec 64 :=
  mem top (l0Index va) &&& outAddrMask

structure Mapped (mem : Memory) (top va : BitVec 64) : Prop where
  valid : isValid (mem top (l0Index va)) = true
  table : isTable (mem top (l0Index va)) = true
  slot : mem (slotTable mem top va) (l1Index va) = blockDescriptor2m uart0Base

structure MapsOnce (before after : Memory) (top va : BitVec 64) (ok : Bool) : Prop where
  frame : ∀ base i, ¬(base = slotTable before top va ∧ i = l1Index va) →
    after base i = before base i
  slot : after ≠ before →
    isValid (before (slotTable before top va) (l1Index va)) = false
  mapped : ok = true ↔ Mapped after top va
  refused : ok = false → after = before
  installs : isValid (before top (l0Index va)) = true → isTable (before top (l0Index va)) = true →
    isValid (before (slotTable before top va) (l1Index va)) = false →
      after = write before (slotTable before top va) (l1Index va) (blockDescriptor2m uart0Base)

variable {mem : Memory} {top l1 va physBase hhdmOffset ttbr1 : BitVec 64}

theorem insertAt_eq (mem : Memory) (top l1 va physBase : BitVec 64) :
    (∃ e, insertBlock2m (mem top) (mem l1) va physBase = .error e ∧
      insertAt mem top l1 va physBase = (.error e, mem)) ∨
    (∃ table, insertBlock2m (mem top) (mem l1) va physBase = .ok table ∧
      insertAt mem top l1 va physBase = (.ok (), Function.update mem l1 table)) := by
  simp only [insertBlock2m, insertAt]
  split_ifs with haligned hvalid htable hfree
  · exact .inl ⟨_, rfl, rfl⟩
  · exact .inl ⟨_, rfl, rfl⟩
  · exact .inl ⟨_, rfl, rfl⟩
  · exact .inl ⟨_, rfl, rfl⟩
  · exact .inr ⟨_, rfl, rfl⟩

theorem insertAt_error {e : InsertBlockError}
    (h : (insertAt mem top l1 va physBase).1 = .error e) :
    (insertAt mem top l1 va physBase).2 = mem := by
  obtain ⟨e, -, heq⟩ | ⟨table, -, heq⟩ := insertAt_eq mem top l1 va physBase
  · rw [heq]
  · rw [heq] at h
    exact nomatch h

theorem insertAt_occupied (hvalid : isValid (mem top (l0Index va)) = true)
    (htable : isTable (mem top (l0Index va)) = true)
    (hslot : isValid (mem l1 (l1Index va)) = true) :
    insertAt mem top l1 va uart0Base = (.error .occupied, mem) := by
  rw [isValid_iff] at hvalid hslot
  rw [isTable_iff] at htable
  have haligned : ¬ uart0Base % block2Mib ≠ 0 := by decide
  simp only [insertAt, if_neg haligned, if_neg hvalid, if_neg htable, if_pos hslot]

theorem insertAt_free (hvalid : isValid (mem top (l0Index va)) = true)
    (htable : isTable (mem top (l0Index va)) = true)
    (hslot : isValid (mem l1 (l1Index va)) = false) :
    insertAt mem top l1 va uart0Base =
      (.ok (), write mem l1 (l1Index va) (blockDescriptor2m uart0Base)) := by
  rw [← Bool.not_eq_true, isValid_iff] at hslot
  rw [isValid_iff] at hvalid
  rw [isTable_iff] at htable
  have haligned : ¬ uart0Base % block2Mib ≠ 0 := by decide
  simp only [insertAt, if_neg haligned, if_neg hvalid, if_neg htable, if_neg hslot]

/-- The caller's checks of the top entry come first, so only the slot is left to look at. -/
theorem mapUartWindow_cases (mem : Memory)
    (hva : hhdmOffset.toNat + uart0Base.toNat < 2 ^ 64)
    (htop : top = ttbr1 &&& outAddrMask) (hbase : top ≠ 0) (hat : va = hhdmOffset + uart0Base) :
    (¬(isValid (mem top (l0Index va)) = true ∧ isTable (mem top (l0Index va)) = true) ∧
      mapUartWindow hhdmOffset ttbr1 mem = .ok (false, mem)) ∨
    ((isValid (mem top (l0Index va)) = true ∧ isTable (mem top (l0Index va)) = true) ∧
      (isValid (mem (slotTable mem top va) (l1Index va)) = true ∧
        mapUartWindow hhdmOffset ttbr1 mem = .ok (decide
          (mem (slotTable mem top va) (l1Index va) = blockDescriptor2m uart0Base), mem) ∨
      isValid (mem (slotTable mem top va) (l1Index va)) = false ∧
        mapUartWindow hhdmOffset ttbr1 mem = .ok (true,
          write mem (slotTable mem top va) (l1Index va) (blockDescriptor2m uart0Base)))) := by
  have hoverflow : ¬ hhdmOffset.toNat + uart0Base.toNat ≥ 2 ^ 64 := by omega
  subst htop hat
  by_cases htopEntry : isValid (mem (ttbr1 &&& outAddrMask) (l0Index (hhdmOffset + uart0Base))) =
      true ∧ isTable (mem (ttbr1 &&& outAddrMask) (l0Index (hhdmOffset + uart0Base))) = true
  · refine .inr ⟨htopEntry, ?_⟩
    obtain ⟨hvalid, htable⟩ := htopEntry
    have hcheck := not_or.mpr ⟨(isValid_iff _).mp hvalid, (isTable_iff _).mp htable⟩
    cases hslot : isValid (mem (slotTable mem (ttbr1 &&& outAddrMask) (hhdmOffset + uart0Base))
        (l1Index (hhdmOffset + uart0Base))) with
    | true =>
      refine .inl ⟨rfl, ?_⟩
      simp only [mapUartWindow, if_neg hoverflow, if_neg hbase, if_neg hcheck]
      rw [← slotTable, insertAt_occupied hvalid htable hslot]
      rfl
    | false =>
      refine .inr ⟨rfl, ?_⟩
      simp only [mapUartWindow, if_neg hoverflow, if_neg hbase, if_neg hcheck]
      rw [← slotTable, insertAt_free hvalid htable hslot]
      rfl
  · refine .inl ⟨htopEntry, ?_⟩
    rw [isValid_iff, isTable_iff, not_and_or, not_not, not_not] at htopEntry
    simp only [mapUartWindow, if_neg hoverflow, if_neg hbase, if_pos htopEntry]
    rfl

theorem mapsOnce_refused
    (h : ¬(isValid (mem top (l0Index va)) = true ∧ isTable (mem top (l0Index va)) = true)) :
    MapsOnce mem mem top va false where
  frame := fun _ _ _ => rfl
  slot := fun h => absurd rfl h
  mapped := iff_of_false nofun fun hmapped => h ⟨hmapped.valid, hmapped.table⟩
  refused := fun _ => rfl
  installs := fun hvalid htable => absurd ⟨hvalid, htable⟩ h

theorem mapsOnce_occupied (hvalid : isValid (mem top (l0Index va)) = true)
    (htable : isTable (mem top (l0Index va)) = true)
    (hslot : isValid (mem (slotTable mem top va) (l1Index va)) = true) :
    MapsOnce mem mem top va
      (decide (mem (slotTable mem top va) (l1Index va) = blockDescriptor2m uart0Base)) where
  frame := fun _ _ _ => rfl
  slot := fun h => absurd rfl h
  mapped := by
    rw [decide_eq_true_eq]
    exact ⟨fun hslot => ⟨hvalid, htable, hslot⟩, fun hmapped => hmapped.slot⟩
  refused := fun _ => rfl
  installs := fun _ _ hfree => absurd (hfree.symm.trans hslot) nofun

/-- The top entry is valid and the slot was not, so they are different words. -/
theorem mapped_write (hvalid : isValid (mem top (l0Index va)) = true)
    (htable : isTable (mem top (l0Index va)) = true)
    (hslot : isValid (mem (slotTable mem top va) (l1Index va)) = false) :
    Mapped (write mem (slotTable mem top va) (l1Index va) (blockDescriptor2m uart0Base))
      top va := by
  have hentry : write mem (slotTable mem top va) (l1Index va) (blockDescriptor2m uart0Base) top
      (l0Index va) = mem top (l0Index va) := by
    apply write_of_ne
    intro heq
    rw [heq, hslot] at hvalid
    exact nomatch hvalid
  have htable' : slotTable (write mem (slotTable mem top va) (l1Index va)
      (blockDescriptor2m uart0Base)) top va = slotTable mem top va :=
    congrArg (· &&& outAddrMask) hentry
  refine ⟨hentry ▸ hvalid, hentry ▸ htable, ?_⟩
  rw [htable']
  exact write_self mem _ _ _

theorem Mapped.mapUartWindow_eq (h : Mapped mem top va)
    (hva : hhdmOffset.toNat + uart0Base.toNat < 2 ^ 64) (htop : top = ttbr1 &&& outAddrMask)
    (hbase : top ≠ 0) (hat : va = hhdmOffset + uart0Base) :
    mapUartWindow hhdmOffset ttbr1 mem = .ok (true, mem) := by
  obtain ⟨hrefused, -⟩ | ⟨-, ⟨-, hmap⟩ | ⟨hfree, -⟩⟩ :=
    mapUartWindow_cases mem hva htop hbase hat
  · exact absurd ⟨h.valid, h.table⟩ hrefused
  · rw [hmap, decide_eq_true h.slot]
  · rw [h.slot] at hfree
    exact absurd hfree (by decide)

theorem map_uart_window_once (mem : Memory) (hhdmOffset ttbr1 : BitVec 64)
    (hbase : ttbr1 &&& outAddrMask ≠ 0) :
    (hhdmOffset.toNat + uart0Base.toNat < 2 ^ 64 → ∃ ok mem',
      mapUartWindow hhdmOffset ttbr1 mem = .ok (ok, mem') ∧
      MapsOnce mem mem' (ttbr1 &&& outAddrMask) (hhdmOffset + uart0Base) ok ∧
      mapUartWindow hhdmOffset ttbr1 mem' = .ok (ok, mem')) ∧
    (2 ^ 64 ≤ hhdmOffset.toNat + uart0Base.toNat →
      mapUartWindow hhdmOffset ttbr1 mem = .error .overflow) ∧
    ∀ (tables : Memory) (top l1 va physBase : BitVec 64) (e : InsertBlockError),
      (insertAt tables top l1 va physBase).1 = .error e →
        (insertAt tables top l1 va physBase).2 = tables := by
  refine ⟨fun hva => ?_, fun hover => if_pos hover, fun _ _ _ _ _ _ => insertAt_error⟩
  obtain ⟨hrefused, hmap⟩ | ⟨⟨hvalid, htable⟩, ⟨hslot, hmap⟩ | ⟨hfree, hmap⟩⟩ :=
    mapUartWindow_cases mem hva rfl hbase rfl
  · exact ⟨_, _, hmap, mapsOnce_refused hrefused, hmap⟩
  · exact ⟨_, _, hmap, mapsOnce_occupied hvalid htable hslot, hmap⟩
  · have hmapped := mapped_write hvalid htable hfree
    refine ⟨_, _, hmap, ⟨?_, fun _ => hfree, iff_of_true rfl hmapped, nofun, fun _ _ _ => rfl⟩,
      hmapped.mapUartWindow_eq hva rfl hbase rfl⟩
    exact fun base i hother => write_frame hother

theorem map_uart_window_once_boot : ∃ ok mem',
    mapUartWindow 0xFFFF000000000000 0x1000 bootTables = .ok (ok, mem') ∧
    MapsOnce bootTables mem' 0x1000 uartVa ok ∧
    mapUartWindow 0xFFFF000000000000 0x1000 mem' = .ok (ok, mem') :=
  (map_uart_window_once bootTables 0xFFFF000000000000 0x1000 (by decide)).1 (by decide)

end FerricK.Mmu
