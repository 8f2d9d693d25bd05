import Mathlib.Data.Nat.Bitwise
import Mathlib.Tactic.Common

namespace FerricK.Gdt

/-- The size in bytes of each field of `Tss`, which is `repr(C, packed)`. -/
def tssFields : List Nat :=
  [2, 2, 1, 1, 4, 4, 2, 1, 1, 4, 4, 2, 1, 1, 4, 4, 2, 1, 1, 4, 4, 2, 1, 1, 4, 4,
    8, 8, 8, 8, 8, 4, 2]

def sizeOfTss : Nat := tssFields.sum

/-- The word of a `GdtEntry`; its base has 32 bits, so nothing is above bit 63. -/
def gdtEntry (base limit : BitVec 32) (access flags : BitVec 8) : BitVec 64 :=
  let limitLo := (limit &&& 0xFFFF).setWidth 64
  let baseLo := (base &&& 0xFFFF).setWidth 64
  let baseMid := ((base >>> 16) &&& 0xFF).setWidth 64
  let accessU64 := access.setWidth 64
  let limitHi := ((limit >>> 16) &&& 0x0F).setWidth 64
  let flagsU64 := (flags &&& 0x0F).setWidth 64
  let baseHi := ((base >>> 24) &&& 0xFF).setWidth 64
  limitLo ||| (baseLo <<< 16) ||| (baseMid <<< 24) ||| (accessU64 <<< 40) ||| (limitHi <<< 48) |||
    (flagsU64 <<< 52) ||| (baseHi <<< 56)

structure TssEntry where
  low : BitVec 64
  high : BitVec 64
  deriving DecidableEq

def tssDescriptor (addr : BitVec 64) : TssEntry :=
  let baseLo := addr &&& 0xFFFF
  let baseMid := (addr >>> 16) &&& 0xFF
  let baseHigh := (addr >>> 24) &&& 0xFF
  let baseUpper := (addr >>> 32) &&& 0xFFFFFFFF
  let limit := BitVec.ofNat 64 (sizeOfTss - 1) &&& 0xFFFF
  let access := 0x89#64
  let flags := 0x0#64
  { low := limit ||| (baseLo <<< 16) ||| (baseMid <<< 24) ||| (access <<< 40) ||| (flags <<< 52) |||
      (baseHigh <<< 56)
    high := baseUpper }

structure Descriptor (w : Nat) where
  base : BitVec w
  limit : BitVec 20
  access : BitVec 8
  flags : BitVec 4
  deriving DecidableEq

/-- The documented layout: limit 15:0 in bits 0-15, base 23:0 in bits 16-39, access in bits
40-47, limit 19:16 in bits 48-51, flags in bits 52-55, base 31:24 in bits 56-63. -/
def decode (low : BitVec 64) : Descriptor 32 where
  base := low.extractLsb' 56 8 ++ low.extractLsb' 16 24
  limit := low.extractLsb' 48 4 ++ low.extractLsb' 0 16
  access := low.extractLsb' 40 8
  flags := low.extractLsb' 52 4

/-- A system descriptor has base 63:32 in its second word. -/
def TssEntry.decode (e : TssEntry) : Descriptor 64 :=
  { Gdt.decode e.low with base := e.high.extractLsb' 0 32 ++ (Gdt.decode e.low).base }

theorem and_mask (x : BitVec w) (k : Nat) (i : Nat) :
    (x &&& BitVec.ofNat w (2 ^ k - 1)).getLsbD i = (x.getLsbD i && decide (i < k)) := by
  rw [BitVec.getLsbD_and, BitVec.getLsbD_ofNat, Nat.testBit_two_pow_sub_one]
  cases hx : x.getLsbD i with
  | false => rfl
  | true => simp [BitVec.lt_of_getLsbD hx]

theorem getLsbD_place (x m : BitVec w) {k : Nat} (hm : m = BitVec.ofNat w (2 ^ k - 1))
    (off i : Nat) :
    (((x &&& m).setWidth 64) <<< off).getLsbD i =
      (decide (i < 64 ∧ off ≤ i ∧ i < off + k) && x.getLsbD (i - off)) := by
  rw [hm, BitVec.getLsbD_shiftLeft, BitVec.getLsbD_setWidth, and_mask]
  grind

theorem getLsbD_gdtEntry (base limit : BitVec 32) (access flags : BitVec 8) (i : Nat) :
    (gdtEntry base limit access flags).getLsbD i =
      (decide (i < 16) && limit.getLsbD i ||
        decide (16 ≤ i ∧ i < 32) && base.getLsbD (i - 16) ||
        decide (24 ≤ i ∧ i < 32) && base.getLsbD (i - 8) ||
        decide (40 ≤ i ∧ i < 48) && access.getLsbD (i - 40) ||
        decide (48 ≤ i ∧ i < 52) && limit.getLsbD (i - 32) ||
        decide (52 ≤ i ∧ i < 56) && flags.getLsbD (i - 52) ||
        decide (56 ≤ i ∧ i < 64) && base.getLsbD (i - 32)) := by
  have hlimit := getLsbD_place limit 0xFFFF (k := 16) rfl 0 i
  rw [BitVec.shiftLeft_zero] at hlimit
  simp only [gdtEntry, BitVec.getLsbD_or, hlimit, getLsbD_place base 0xFFFF (k := 16) rfl,
    getLsbD_place (base >>> 16) 0xFF (k := 8) rfl, getLsbD_place (limit >>> 16) 0x0F (k := 4) rfl,
    getLsbD_place flags 0x0F (k := 4) rfl, getLsbD_place (base >>> 24) 0xFF (k := 8) rfl,
    BitVec.getLsbD_ushiftRight, BitVec.getLsbD_shiftLeft, BitVec.getLsbD_setWidth]
  grind

theorem gdtEntry_eq_or (base limit : BitVec 32) (access flags : BitVec 8) :
    gdtEntry base limit access flags = gdtEntry base 0 0 0 ||| gdtEntry 0 limit access flags := by
  ext i hi
  simp only [← BitVec.getLsbD_eq_getElem, BitVec.getLsbD_or, getLsbD_gdtEntry]
  grind

theorem tssDescriptor_low (addr : BitVec 64) :
    (tssDescriptor addr).low =
      gdtEntry (addr.setWidth 32) (BitVec.ofNat 32 (sizeOfTss - 1)) 0x89 0 := by
  have hplace : ∀ (x m : BitVec 64) {k : Nat}, m = BitVec.ofNat 64 (2 ^ k - 1) → ∀ off i,
      ((x &&& m) <<< off).getLsbD i =
        (decide (i < 64 ∧ off ≤ i ∧ i < off + k) && x.getLsbD (i - off)) := by
    intro x m k hm off i
    have h := getLsbD_place x m hm off i
    rwa [BitVec.setWidth_eq] at h
  have hconst : BitVec.ofNat 64 (sizeOfTss - 1) &&& 0xFFFF |||
      (0x89#64 <<< 40) ||| (0x0#64 <<< 52) =
        gdtEntry 0 (BitVec.ofNat 32 (sizeOfTss - 1)) 0x89 0 := by
    decide
  rw [gdtEntry_eq_or, ← hconst]
  ext i hi
  simp only [← BitVec.getLsbD_eq_getElem, tssDescriptor, BitVec.getLsbD_or, getLsbD_gdtEntry,
    hplace addr 0xFFFF (k := 16) rfl, hplace (addr >>> 16) 0xFF (k := 8) rfl,
    hplace (addr >>> 24) 0xFF (k := 8) rfl, BitVec.getLsbD_ushiftRight, BitVec.getLsbD_setWidth]
  grind

/-- What is left of a base by the time it is read back: bits 16 to 23 are gone, and have been
or-ed into bits 8 to 15. -/
def baseRead (base : BitVec 32) : BitVec 32 :=
  base.extractLsb' 24 8 ++ 0#8 ++ (base.extractLsb' 8 8 ||| base.extractLsb' 16 8) ++
    base.extractLsb' 0 8

theorem decode_gdtEntry (base : BitVec 32) (limit : BitVec 20) (access : BitVec 8)
    (flags : BitVec 4) :
    decode (gdtEntry base (limit.setWidth 32) access (flags.setWidth 8)) =
      ⟨baseRead base, limit, access, flags⟩ := by
  rw [decode, Descriptor.mk.injEq, baseRead]
  refine ⟨?_, ?_, ?_, ?_⟩ <;> ext i hi
  · simp only [← BitVec.getLsbD_eq_getElem, BitVec.getLsbD_append, BitVec.getLsbD_extractLsb',
      getLsbD_gdtEntry, BitVec.getLsbD_setWidth, BitVec.getLsbD_or, BitVec.getLsbD_zero]
    grind
  all_goals
    simp only [← BitVec.getLsbD_eq_getElem, BitVec.getLsbD_append, BitVec.getLsbD_extractLsb',
      getLsbD_gdtEntry, BitVec.getLsbD_setWidth]
    grind

theorem baseRead_eq_iff (base : BitVec 32) : baseRead base = base ↔ base.extractLsb' 16 8 = 0 := by
  have hsplit : base = base.extractLsb' 24 8 ++ base.extractLsb' 16 8 ++ base.extractLsb' 8 8 ++
      base.extractLsb' 0 8 := by
    ext i hi
    simp only [← BitVec.getLsbD_eq_getElem, BitVec.getLsbD_append, BitVec.getLsbD_extractLsb']
    grind
  constructor
  · intro h
    have hmid := congrArg (BitVec.extractLsb' 16 8) h
    rw [← hmid]
    ext i hi
    simp only [← BitVec.getLsbD_eq_getElem, baseRead, BitVec.getLsbD_append,
      BitVec.getLsbD_extractLsb', BitVec.getLsbD_or, BitVec.getLsbD_zero]
    grind
  · intro h
    conv_rhs => rw [hsplit]
    rw [baseRead, h]
    simp

theorem decode_tssDescriptor (addr : BitVec 64) :
    (tssDescriptor addr).decode =
      ⟨addr.extractLsb' 32 32 ++ baseRead (addr.setWidth 32), BitVec.ofNat 20 (sizeOfTss - 1),
        0x89, 0⟩ := by
  have hlow := decode_gdtEntry (addr.setWidth 32) (BitVec.ofNat 20 (sizeOfTss - 1)) 0x89 0
  have hhigh : (tssDescriptor addr).high.extractLsb' 0 32 = addr.extractLsb' 32 32 := by
    have hmask := and_mask (addr >>> 32) 32
    ext i hi
    simp only [← BitVec.getLsbD_eq_getElem, tssDescriptor, BitVec.getLsbD_extractLsb']
    rw [show (0xFFFFFFFF : BitVec 64) = BitVec.ofNat 64 (2 ^ 32 - 1) from rfl, hmask,
      BitVec.getLsbD_ushiftRight]
    grind
  rw [TssEntry.decode, hhigh, tssDescriptor_low]
  change decode (gdtEntry (addr.setWidth 32) (BitVec.ofNat 32 (sizeOfTss - 1)) 0x89 0) = _ at hlow
  rw [hlow]

/-- A descriptor gives its fields back exactly when bits 16 to 23 of the base are zero: both
constructors shift them to bit 24 of the word, where the layout has bit 32. -/
theorem descriptors_round_trip_iff (addr : BitVec 64) (base : BitVec 32) (limit : BitVec 20)
    (access : BitVec 8) (flags : BitVec 4) :
    ((tssDescriptor addr).decode = ⟨addr, BitVec.ofNat 20 (sizeOfTss - 1), 0x89, 0⟩ ↔
      addr.extractLsb' 16 8 = 0) ∧
    (decode (gdtEntry base (limit.setWidth 32) access (flags.setWidth 8)) =
      ⟨base, limit, access, flags⟩ ↔ base.extractLsb' 16 8 = 0) := by
  constructor
  · have hsplit : addr = addr.extractLsb' 32 32 ++ addr.setWidth 32 := by
      ext i hi
      simp only [← BitVec.getLsbD_eq_getElem, BitVec.getLsbD_append, BitVec.getLsbD_extractLsb',
        BitVec.getLsbD_setWidth]
      grind
    have hmid : (addr.setWidth 32).extractLsb' 16 8 = addr.extractLsb' 16 8 := by
      ext i hi
      simp only [← BitVec.getLsbD_eq_getElem, BitVec.getLsbD_extractLsb', BitVec.getLsbD_setWidth]
      grind
    have happend : ∀ low : BitVec 32, addr.extractLsb' 32 32 ++ low = addr ↔
        low = addr.setWidth 32 := by
      intro low
      constructor
      · intro h
        rw [← h]
        ext i hi
        simp only [← BitVec.getLsbD_eq_getElem, BitVec.getLsbD_setWidth, BitVec.getLsbD_append]
        grind
      · rintro rfl
        exact hsplit.symm
    rw [decode_tssDescriptor, Descriptor.mk.injEq, ← hmid, ← baseRead_eq_iff, happend]
    simp
  · rw [decode_gdtEntry, Descriptor.mk.injEq, ← baseRead_eq_iff]
    simp

theorem descriptors_lose_base :
    (tssDescriptor 0x10000).decode ≠ ⟨0x10000, BitVec.ofNat 20 (sizeOfTss - 1), 0x89, 0⟩ ∧
      decode (gdtEntry 0x10000 0xFFFFF 0x9A 0xA) ≠ ⟨0x10000, 0xFFFFF, 0x9A, 0xA⟩ := by
  decide

end FerricK.Gdt
