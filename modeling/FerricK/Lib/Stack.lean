import FerricK.Lib.Bytes

/-! Words of a 64-bit memory, numbered from a base.  Addresses wrap, so a stack is the slots
below some address, wherever that address is. -/

namespace Stack

open Bytes

abbrev Mem := BitVec 64 → UInt8

def addr (base : BitVec 64) (k : Nat) : BitVec 64 := base + BitVec.ofNat 64 (8 * k)

def read (m : Mem) (a : BitVec 64) : BitVec 64 := BitVec.ofNat 64 (loadWord m a)

def write (m : Mem) (a v : BitVec 64) : Mem := storeWord m a v.toNat

/-- The memory after `vs` have been pushed, the first into slot `k - 1`. -/
def pushes (base : BitVec 64) : Nat → List (BitVec 64) → Mem → Mem
  | _, [], m => m
  | k, v :: vs, m => pushes base (k - 1) vs (write m (addr base (k - 1)) v)

def fill (base : BitVec 64) : Nat → List (BitVec 64) → Mem → Mem
  | _, [], m => m
  | k, v :: vs, m => fill base (k + 1) vs (write m (addr base k) v)

variable {base a v : BitVec 64} {m m' : Mem} {i j k n : Nat} {vs ws : List (BitVec 64)}

theorem addr_zero (base : BitVec 64) : addr base 0 = base := BitVec.add_zero base

theorem addr_succ (base : BitVec 64) (k : Nat) : addr base k + 8 = addr base (k + 1) := by
  rw [addr, addr, Nat.mul_succ, BitVec.ofNat_add, BitVec.add_assoc]
  rfl

theorem addr_pred (base : BitVec 64) (k : Nat) : addr base (k + 1) - 8 = addr base k := by
  rw [← addr_succ, BitVec.add_sub_cancel]

theorem offset_inj (hi : i < 2 ^ 64) (hj : j < 2 ^ 64)
    (h : base + BitVec.ofNat 64 i = base + BitVec.ofNat 64 j) : i = j := by
  have hofNat := congrArg BitVec.toNat (add_left_cancel h)
  rwa [BitVec.toNat_ofNat, BitVec.toNat_ofNat, Nat.mod_eq_of_lt hi, Nat.mod_eq_of_lt hj] at hofNat

theorem nodup_span (hn : n ≤ 2 ^ 64) (a : BitVec 64) : (span a n).Nodup := by
  induction n generalizing a with
  | zero => exact List.nodup_nil
  | succ n ih =>
    refine List.nodup_cons.mpr ⟨fun hmem => ?_, ih (by omega) (a + 1)⟩
    obtain ⟨i, hi, heq⟩ := mem_span_bitVec.mp hmem
    have hoffset : a + BitVec.ofNat 64 0 = a + BitVec.ofNat 64 (1 + i) := by
      rw [BitVec.ofNat_add, ← BitVec.add_assoc]
      exact (BitVec.add_zero a).trans heq
    have hzero := offset_inj (by omega) (by omega) hoffset
    omega

theorem read_write_self (m : Mem) (a v : BitVec 64) : read (write m a v) a = v := by
  rw [read, write, loadWord_storeWord (nodup_span (by omega) a) v.isLt, BitVec.ofNat_toNat,
    BitVec.setWidth_eq]

theorem read_congr (h : ∀ x ∈ span a 8, m x = m' x) : read m a = read m' a :=
  congrArg (BitVec.ofNat 64) (loadWord_congr h)

theorem mem_span_addr : a ∈ span (addr base k) 8 ↔
    ∃ i, 8 * k ≤ i ∧ i < 8 * (k + 1) ∧ a = base + BitVec.ofNat 64 i := by
  rw [mem_span_bitVec]
  constructor
  · rintro ⟨i, hi, rfl⟩
    exact ⟨8 * k + i, by omega, by omega, by rw [addr, BitVec.add_assoc, ← BitVec.ofNat_add]⟩
  · rintro ⟨i, hge, hlt, rfl⟩
    refine ⟨i - 8 * k, by omega, ?_⟩
    rw [addr, BitVec.add_assoc, ← BitVec.ofNat_add]
    congr 2
    omega

theorem read_write_of_ne (hk : k < 2 ^ 60) (hj : j < 2 ^ 60) (hne : j ≠ k) :
    read (write m (addr base k) v) (addr base j) = read m (addr base j) := by
  rw [read, write, loadWord_storeWord_of_disjoint, read]
  intro x hxj hxk
  obtain ⟨i, hi₁, hi₂, rfl⟩ := mem_span_addr.mp hxj
  obtain ⟨i', hi₁', hi₂', heq⟩ := mem_span_addr.mp hxk
  have hoffset := offset_inj (by omega) (by omega) heq
  omega

theorem write_of_not_mem (hk : k < n) (ha : a ∉ span base (8 * n)) :
    write m (addr base k) v a = m a := by
  refine storeWord_of_not_mem fun hmem => ha ?_
  obtain ⟨i, -, hi, rfl⟩ := mem_span_addr.mp hmem
  exact mem_span_bitVec.mpr ⟨i, by omega, rfl⟩

theorem read_pushes_of_le (hk : k ≤ 2 ^ 60) (hlen : vs.length ≤ k) (hj : j < 2 ^ 60) (hle : k ≤ j) :
    read (pushes base k vs m) (addr base j) = read m (addr base j) := by
  induction vs generalizing k m with
  | nil => rfl
  | cons v vs ih =>
    rw [List.length_cons] at hlen
    rw [pushes, ih (by omega) (by omega) (by omega),
      read_write_of_ne (by omega) hj (by omega)]

theorem read_pushes (hk : k ≤ 2 ^ 60) (hlen : vs.length ≤ k) (hi : vs[i]? = some v) :
    read (pushes base k vs m) (addr base (k - (i + 1))) = v := by
  induction vs generalizing k m i with
  | nil => exact nomatch hi
  | cons w vs ih =>
    rw [List.length_cons] at hlen
    rw [pushes]
    cases i with
    | zero =>
      obtain rfl : w = v := Option.some.inj hi
      rw [Nat.zero_add, read_pushes_of_le (by omega) (by omega) (by omega) le_rfl,
        read_write_self]
    | succ i =>
      rw [show k - (i + 1 + 1) = k - 1 - (i + 1) by omega]
      exact ih (by omega) (by omega) hi

theorem pushes_append (base : BitVec 64) (k : Nat) (vs ws : List (BitVec 64)) (m : Mem) :
    pushes base k (vs ++ ws) m = pushes base (k - vs.length) ws (pushes base k vs m) := by
  induction vs generalizing k m with
  | nil => rfl
  | cons v vs ih =>
    rw [List.cons_append, pushes, ih, pushes, List.length_cons, Nat.sub_sub, Nat.add_comm 1]

theorem pushes_of_not_mem (hlen : vs.length ≤ k) (hk : k ≤ n) (ha : a ∉ span base (8 * n)) :
    pushes base k vs m a = m a := by
  induction vs generalizing k m with
  | nil => rfl
  | cons v vs ih =>
    rw [List.length_cons] at hlen
    rw [pushes, ih (by omega) (by omega), write_of_not_mem (by omega) ha]

end Stack
