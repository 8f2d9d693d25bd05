import Mathlib.Algebra.Ring.Nat
import Mathlib.Logic.Function.Basic
import Mathlib.Tactic.Common

/-! The stage 1 walk of an AArch64 processor with a 4 KiB granule: four levels of tables, each
indexed by nine bits of the address. -/

namespace Stage1

abbrev Table := BitVec 9 → BitVec 64

/-- The tables by their base addresses. -/
abbrev Memory := BitVec 64 → Table

abbrev Addr := BitVec 48

def index0 (a : Addr) : BitVec 9 := a.extractLsb' 39 9
def index1 (a : Addr) : BitVec 9 := a.extractLsb' 30 9
def index2 (a : Addr) : BitVec 9 := a.extractLsb' 21 9
def index3 (a : Addr) : BitVec 9 := a.extractLsb' 12 9

/-- Bit 0 of a descriptor says that it is valid, bit 1 that it is a table (at the last level, a
page) and not a block. -/
def isValid (d : BitVec 64) : Bool := d.getLsbD 0
def isTable (d : BitVec 64) : Bool := d.getLsbD 1

def next (d : BitVec 64) : BitVec 64 := d &&& 0x0000FFFFFFFFF000

/-- A block or a page that spans `k` bits gives the address above them. -/
def output (d : BitVec 64) (k : Nat) (a : Addr) : Addr :=
  (d.setWidth 48 >>> k) <<< k ||| (a &&& BitVec.ofNat 48 (2 ^ k - 1))

/-- A block has no meaning at level 0, nor has one at level 3. -/
def translate (mem : Memory) (base : BitVec 64) (a : Addr) : Option Addr :=
  let d0 := mem base (index0 a)
  if isValid d0 && isTable d0 then
    let d1 := mem (next d0) (index1 a)
    if isValid d1 then
      if isTable d1 then
        let d2 := mem (next d1) (index2 a)
        if isValid d2 then
          if isTable d2 then
            let d3 := mem (next d2) (index3 a)
            if isValid d3 && isTable d3 then some (output d3 12 a) else none
          else some (output d2 21 a)
        else none
      else some (output d1 30 a)
    else none
  else none

def write (mem : Memory) (base : BitVec 64) (i : BitVec 9) (d : BitVec 64) : Memory :=
  Function.update mem base (Function.update (mem base) i d)

variable {mem : Memory} {base l1 : BitVec 64} {a : Addr} {i j : BitVec 9} {d : BitVec 64}

theorem write_self (mem : Memory) (base : BitVec 64) (i : BitVec 9) (d : BitVec 64) :
    write mem base i d base i = d := by
  rw [write, Function.update_self, Function.update_self]

theorem write_frame (h : ¬(base = l1 ∧ j = i)) : write mem l1 i d base j = mem base j := by
  rw [write]
  by_cases hbase : base = l1
  · have hne : j ≠ i := fun hj => h ⟨hbase, hj⟩
    rw [hbase, Function.update_self, Function.update_of_ne hne]
  · rw [Function.update_of_ne hbase]

theorem write_of_ne (h : mem base j ≠ mem l1 i) : write mem l1 i d base j = mem base j := by
  apply write_frame
  rintro ⟨rfl, rfl⟩
  exact h rfl

structure HasL1 (mem : Memory) (base : BitVec 64) (a : Addr) (l1 : BitVec 64) : Prop where
  valid : isValid (mem base (index0 a)) = true
  table : isTable (mem base (index0 a)) = true
  next : next (mem base (index0 a)) = l1

theorem HasL1.translate_eq_none (h : HasL1 mem base a l1)
    (hinvalid : isValid (mem l1 (index1 a)) = false) : translate mem base a = none := by
  simp [translate, h.valid, h.table, h.next, hinvalid]

theorem HasL1.translate_eq_block (h : HasL1 mem base a l1)
    (hvalid : isValid (mem l1 (index1 a)) = true) (hblock : isTable (mem l1 (index1 a)) = false) :
    translate mem base a = some (output (mem l1 (index1 a)) 30 a) := by
  simp [translate, h.valid, h.table, h.next, hvalid, hblock]

theorem HasL1.write (h : HasL1 mem base a l1) (hinvalid : isValid (mem l1 i) = false)
    (d : BitVec 64) : HasL1 (write mem l1 i d) base a l1 := by
  have hne : mem base (index0 a) ≠ mem l1 i := by
    intro heq
    exact absurd (heq ▸ h.valid) (by simp [hinvalid])
  have hentry : Stage1.write mem l1 i d base (index0 a) = mem base (index0 a) := write_of_ne hne
  exact ⟨hentry ▸ h.valid, hentry ▸ h.table, hentry ▸ h.next⟩

theorem HasL1.translate_write_block (h : HasL1 mem base a l1)
    (hinvalid : isValid (mem l1 (index1 a)) = false) (hvalid : isValid d = true)
    (hblock : isTable d = false) :
    translate (Stage1.write mem l1 (index1 a) d) base a = some (output d 30 a) := by
  have hentry : Stage1.write mem l1 (index1 a) d l1 (index1 a) = d := write_self mem l1 _ d
  have hl1 := h.write hinvalid d
  rw [hl1.translate_eq_block (by rw [hentry]; exact hvalid) (by rw [hentry]; exact hblock), hentry]

end Stage1
