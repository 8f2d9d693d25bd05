import FerricK.Lib.Stage1

namespace FerricK.Mmu

open Stage1

def block2Mib : BitVec 64 := 0x200000

def valid : BitVec 64 := 1 <<< 0
def tableOrPage : BitVec 64 := 1 <<< 1
def attrIdxWb : BitVec 64 := 0b000 <<< 2
def apEl1Rw : BitVec 64 := 0b00 <<< 6
def innerShareable : BitVec 64 := 0b11 <<< 8
def accessed : BitVec 64 := 1 <<< 10
def uxn : BitVec 64 := 1 <<< 54

def outAddrMask : BitVec 64 := 0x0000FFFFFFFFF000

def l0Index (va : BitVec 64) : BitVec 9 := ((va >>> 39) &&& 0x1FF).setWidth 9
def l1Index (va : BitVec 64) : BitVec 9 := ((va >>> 30) &&& 0x1FF).setWidth 9

def blockDescriptor2m (physBase : BitVec 64) : BitVec 64 :=
  physBase ||| valid ||| attrIdxWb ||| apEl1Rw ||| innerShareable ||| accessed ||| uxn

inductive InsertBlockError
  | topInvalid
  | topNotTable
  | occupied
  | misaligned
  deriving DecidableEq

def insertBlock2m (top l1 : Table) (va physBase : BitVec 64) : Except InsertBlockError Table :=
  if physBase % block2Mib ≠ 0 then .error .misaligned
  else
    let topEntry := top (l0Index va)
    if topEntry &&& valid = 0 then .error .topInvalid
    else if topEntry &&& tableOrPage = 0 then .error .topNotTable
    else
      let idx := l1Index va
      if l1 idx &&& valid ≠ 0 then .error .occupied
      else .ok (Function.update l1 idx (blockDescriptor2m physBase))

/-- The address as the walk sees it, which ignores the bits that select the top table. -/
def walked (va : BitVec 64) : Addr := va.setWidth 48

/-- The window of 2 MiB around `va` is mapped to `physBase` on, and nothing else has changed. -/
structure MapsWindow (before after : Memory) (ttbr va physBase : BitVec 64) : Prop where
  inside : ∀ a : Addr, a >>> 21 = walked va >>> 21 →
    translate after ttbr a = some (physBase.setWidth 48 + (a &&& 0x1FFFFF))
  outside : ∀ a : Addr, a >>> 21 ≠ walked va >>> 21 →
    translate after ttbr a = translate before ttbr a

variable {mem : Memory} {ttbr l1 va physBase : BitVec 64} {table : Table}

theorem getLsbD_ninebits : ∀ i < 9, (0x1FF : BitVec 64).getLsbD i = true := by decide

theorem ninebits_eq (va : BitVec 64) (k : Nat) (hk : k + 9 ≤ 48) :
    ((va >>> k) &&& 0x1FF).setWidth 9 = (walked va).extractLsb' k 9 := by
  ext i hi
  rw [← BitVec.getLsbD_eq_getElem, ← BitVec.getLsbD_eq_getElem, BitVec.getLsbD_setWidth,
    BitVec.getLsbD_and, BitVec.getLsbD_ushiftRight, getLsbD_ninebits i hi,
    BitVec.getLsbD_extractLsb', walked, BitVec.getLsbD_setWidth]
  simp [hi, show k + i < 48 by omega]

theorem l0Index_eq (va : BitVec 64) : l0Index va = index0 (walked va) :=
  ninebits_eq va 39 (by decide)

theorem l1Index_eq (va : BitVec 64) : l1Index va = index1 (walked va) :=
  ninebits_eq va 30 (by decide)

def neighbour (a : Addr) : Addr := a ^^^ 0x200000

theorem getLsbD_neighbour (a : Addr) (i : Nat) :
    (neighbour a).getLsbD i = (a.getLsbD i ^^ decide (i = 21)) := by
  have hbit : (0x200000 : Addr) = BitVec.twoPow 48 21 := rfl
  rw [neighbour, hbit, BitVec.getLsbD_xor, BitVec.getLsbD_twoPow]
  by_cases hi : i = 21
  · simp [hi]
  · simp [hi, Ne.symm hi]

theorem neighbour_outside (a : Addr) : neighbour a >>> 21 ≠ a >>> 21 := by
  intro h
  have hbit := congrArg (BitVec.getLsbD · 0) h
  simp only [BitVec.getLsbD_ushiftRight, getLsbD_neighbour] at hbit
  simp at hbit

theorem index0_neighbour (a : Addr) : index0 (neighbour a) = index0 a := by
  ext i hi
  simp only [← BitVec.getLsbD_eq_getElem, index0, BitVec.getLsbD_extractLsb', getLsbD_neighbour]
  simp [show 39 + i ≠ 21 by omega]

theorem index1_neighbour (a : Addr) : index1 (neighbour a) = index1 a := by
  ext i hi
  simp only [← BitVec.getLsbD_eq_getElem, index1, BitVec.getLsbD_extractLsb', getLsbD_neighbour]
  simp [show 30 + i ≠ 21 by omega]

theorem isValid_iff (d : BitVec 64) : isValid d = true ↔ d &&& valid ≠ 0 := by
  have hbit : valid = BitVec.twoPow 64 0 := rfl
  rw [hbit, BitVec.and_twoPow, isValid]
  cases d.getLsbD 0 <;> decide

theorem isTable_iff (d : BitVec 64) : isTable d = true ↔ d &&& tableOrPage ≠ 0 := by
  have hbit : tableOrPage = BitVec.twoPow 64 1 := rfl
  rw [hbit, BitVec.and_twoPow, isTable]
  cases d.getLsbD 1 <;> decide

theorem insertBlock2m_eq_ok {top entries : Table}
    (h : insertBlock2m top entries va physBase = .ok table) :
    physBase % block2Mib = 0 ∧ isValid (top (l0Index va)) = true ∧
      isTable (top (l0Index va)) = true ∧ isValid (entries (l1Index va)) = false ∧
      table = Function.update entries (l1Index va) (blockDescriptor2m physBase) := by
  simp only [insertBlock2m] at h
  rw [isValid_iff, isTable_iff, ← Bool.not_eq_true, isValid_iff, not_not]
  split_ifs at h with haligned hvalid htable hfree
  cases h
  exact ⟨not_not.mp haligned, hvalid, htable, not_not.mp hfree, rfl⟩

theorem getLsbD_of_aligned (h : physBase % block2Mib = 0) {i : Nat} (hi : i < 21) :
    physBase.getLsbD i = false := by
  have hmod : physBase.toNat % 2 ^ 21 = 0 := by
    have hnat := congrArg BitVec.toNat h
    rwa [BitVec.toNat_umod] at hnat
  have hbit : (physBase.toNat % 2 ^ 21).testBit i = false := by rw [hmod, Nat.zero_testBit]
  rw [Nat.testBit_mod_two_pow, decide_eq_true hi, Bool.true_and] at hbit
  exact hbit

theorem blockDescriptor2m_bits (h : physBase % block2Mib = 0) :
    isValid (blockDescriptor2m physBase) = true ∧ isTable (blockDescriptor2m physBase) = false := by
  have hattributes : valid.getLsbD 0 = true ∧ valid.getLsbD 1 = false ∧
      attrIdxWb.getLsbD 1 = false ∧ apEl1Rw.getLsbD 1 = false ∧ innerShareable.getLsbD 1 = false ∧
      accessed.getLsbD 1 = false ∧ uxn.getLsbD 1 = false := by
    decide
  obtain ⟨hvalid, hattributes⟩ := hattributes
  simp only [isValid, isTable, blockDescriptor2m, BitVec.getLsbD_or, hvalid, hattributes,
    getLsbD_of_aligned h (by decide : 1 < 21), Bool.or_true, Bool.true_or, Bool.or_self, and_self]

/-- The inserted descriptor translates the whole 1 GiB around `va`. -/
theorem translate_inserted {a : Addr} (hl1 : l1 = next (mem ttbr (l0Index va)))
    (h : insertBlock2m (mem ttbr) (mem l1) va physBase = .ok table)
    (h0 : index0 a = index0 (walked va)) (h1 : index1 a = index1 (walked va)) :
    translate mem ttbr a = none ∧
      translate (Function.update mem l1 table) ttbr a =
        some (output (blockDescriptor2m physBase) 30 a) := by
  obtain ⟨haligned, hvalid, htable, hfree, rfl⟩ := insertBlock2m_eq_ok h
  obtain ⟨hisValid, hisTable⟩ := blockDescriptor2m_bits haligned
  rw [l0Index_eq, ← h0] at hl1 hvalid htable
  rw [l1Index_eq, ← h1] at hfree ⊢
  have hhas : HasL1 mem ttbr a l1 := ⟨hvalid, htable, hl1.symm⟩
  exact ⟨hhas.translate_eq_none hfree, hhas.translate_write_block hfree hisValid hisTable⟩

theorem never_maps_window (mem : Memory) (ttbr l1 va physBase : BitVec 64) (table : Table)
    (hl1 : l1 = next (mem ttbr (l0Index va)))
    (h : insertBlock2m (mem ttbr) (mem l1) va physBase = .ok table) :
    ¬ MapsWindow mem (Function.update mem l1 table) ttbr va physBase := by
  intro hmaps
  obtain ⟨hbefore, hafter⟩ :=
    translate_inserted hl1 h (index0_neighbour (walked va)) (index1_neighbour (walked va))
  have hsame := hmaps.outside (neighbour (walked va)) (neighbour_outside (walked va))
  rw [hbefore, hafter] at hsame
  cases hsame

def bootTables : Memory := fun base i => if base = 0x1000 ∧ i = 0 then 0x12345003 else 0

def uartVa : BitVec 64 := 0xFFFF000009000000

def uartTable : Table :=
  Function.update (bootTables 0x12345000) (l1Index uartVa) (blockDescriptor2m 0x09000000)

theorem never_maps_window_uart :
    insertBlock2m (bootTables 0x1000) (bootTables 0x12345000) uartVa 0x09000000 = .ok uartTable ∧
      ¬ MapsWindow bootTables (Function.update bootTables 0x12345000 uartTable) 0x1000 uartVa
        0x09000000 :=
  ⟨rfl, never_maps_window bootTables 0x1000 0x12345000 uartVa 0x09000000 uartTable (by decide) rfl⟩

theorem uart_maps_next_window : ¬ MapsWindow bootTables
    (Function.update bootTables 0x12345000 uartTable) 0x1000 uartVa 0x09000000 := by
  intro hmaps
  have hsame := hmaps.outside 0x09200000 (by decide)
  have hbefore : translate bootTables 0x1000 0x09200000 = none := by decide
  have hafter : translate (Function.update bootTables 0x12345000 uartTable) 0x1000 0x09200000 =
      some 0x09200000 := by
    decide
  rw [hbefore, hafter] at hsame
  cases hsame

end FerricK.Mmu
