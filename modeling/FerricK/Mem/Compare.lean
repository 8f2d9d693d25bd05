import FerricK.Mem

namespace FerricK.Mem

variable {m : Memory} {dest a b p : BitVec 64} {i n left : Nat} {x : UInt8}

def fill (dest : BitVec 64) (x : UInt8) : (left i : Nat) → Memory → Memory
  | 0, _, m => m
  | left + 1, i, m => fill dest x left (i + 1) (Function.update m (add dest i) x)

/-- `value as u8` keeps the low byte. -/
def memset (dest : BitVec 64) (value : Int32) (n : Nat) (m : Memory) : BitVec 64 × Memory :=
  (dest, fill dest value.toUInt32.toUInt8 n 0 m)

def compareBytes (a b : BitVec 64) (m : Memory) : (left i : Nat) → Int
  | 0, _ => 0
  | left + 1, i =>
    let x := m (add a i)
    let y := m (add b i)
    if x ≠ y then x.toNat - y.toNat else compareBytes a b m left (i + 1)

def memcmp (a b : BitVec 64) (n : Nat) (m : Memory) : Int := compareBytes a b m n 0

def bytesFrom (m : Memory) (p : BitVec 64) (i left : Nat) : List UInt8 :=
  (List.range' i left).map fun j => m (add p j)

def bytes (m : Memory) (p : BitVec 64) (n : Nat) : List UInt8 := bytesFrom m p 0 n

theorem bytesFrom_succ :
    bytesFrom m p i (left + 1) = m (add p i) :: bytesFrom m p (i + 1) left := rfl

theorem bytes_eq_iff {m' : Memory} {p' : BitVec 64} :
    bytes m p n = bytes m' p' n ↔ ∀ i < n, m (add p i) = m' (add p' i) := by
  rw [bytes, bytes, bytesFrom, bytesFrom, List.map_inj_left]
  simp only [List.mem_range'_1, Nat.zero_le, Nat.zero_add, true_and]

theorem fill_of_ne {c : BitVec 64} (h : ∀ j < left, c ≠ add dest (i + j)) :
    fill dest x left i m c = m c := by
  induction left generalizing i m with
  | zero => rfl
  | succ left ih =>
    rw [fill, ih]
    · exact Function.update_of_ne (h 0 (Nat.succ_pos left)) ..
    · intro j hj
      have hne := h (j + 1) (Nat.succ_lt_succ hj)
      rwa [Nat.add_right_comm, Nat.add_assoc]

theorem fill_self (hdest : dest.toNat + n ≤ 2 ^ 64) (hleft : i + left = n) {j : Nat}
    (hij : i ≤ j) (hj : j < n) : fill dest x left i m (add dest j) = x := by
  induction left generalizing i m with
  | zero => omega
  | succ left ih =>
    rw [fill]
    by_cases heq : j = i
    · -- the byte just written: no later iteration comes back to it
      subst heq
      rw [fill_of_ne, Function.update_self]
      intro k hk
      rw [ne_eq, add_inj hdest hj (by omega)]
      omega
    · exact ih (by omega) (by omega)

theorem memset_fills (m : Memory) (dest : BitVec 64) (value : Int32) (n : Nat)
    (hdest : dest.toNat + n ≤ 2 ^ 64) :
    bytes (memset dest value n m).2 dest n = List.replicate n value.toUInt32.toUInt8 ∧
    (∀ c, c.toNat < dest.toNat ∨ dest.toNat + n ≤ c.toNat → (memset dest value n m).2 c = m c) := by
  constructor
  · rw [List.eq_replicate_iff]
    refine ⟨(List.length_map ..).trans List.length_range', fun y hy => ?_⟩
    obtain ⟨j, hj, rfl⟩ := List.mem_map.mp hy
    rw [List.mem_range'_1, Nat.zero_add] at hj
    exact fill_self hdest (Nat.zero_add n) (Nat.zero_le j) hj.2
  · intro c hc
    refine fill_of_ne fun j hj heq => ?_
    rw [Nat.zero_add] at heq
    rw [heq, toNat_add hdest hj] at hc
    omega

theorem compareBytes_lt : compareBytes a b m left i < 0 ↔
    bytesFrom m a i left < bytesFrom m b i left := by
  induction left generalizing i with
  | zero => exact iff_of_false (lt_irrefl 0) (List.lt_irrefl _)
  | succ left ih =>
    rw [compareBytes, bytesFrom_succ, bytesFrom_succ, List.cons_lt_cons_iff, ← ih]
    split
    case isTrue h =>
      rw [sub_neg, Nat.cast_lt, ← UInt8.lt_iff_toNat_lt, or_iff_left fun h' => h h'.1]
    case isFalse h =>
      rw [not_not] at h
      rw [h, or_iff_right (UInt8.lt_irrefl _), and_iff_right rfl]

theorem compareBytes_neg : -compareBytes a b m left i = compareBytes b a m left i := by
  induction left generalizing i with
  | zero => rfl
  | succ left ih =>
    rw [compareBytes, compareBytes]
    by_cases h : m (add a i) = m (add b i)
    · rw [if_neg (not_not.mpr h), if_neg (not_not.mpr h.symm), ih]
    · rw [if_pos h, if_pos (Ne.symm h), neg_sub]

theorem compareBytes_eq_zero : compareBytes a b m left i = 0 ↔
    bytesFrom m a i left = bytesFrom m b i left := by
  induction left generalizing i with
  | zero => exact iff_of_true rfl rfl
  | succ left ih =>
    rw [compareBytes, bytesFrom_succ, bytesFrom_succ, List.cons.injEq, ← ih]
    split
    case isTrue h =>
      rw [sub_eq_zero, Nat.cast_inj, UInt8.toNat_inj]
      exact iff_of_false h fun h' => h h'.1
    case isFalse h => rw [not_not.mp h, and_iff_right rfl]

theorem memcmp_orders (m : Memory) (a b : BitVec 64) (n : Nat) :
    (memcmp a b n m < 0 ↔ bytes m a n < bytes m b n) ∧
    (memcmp a b n m = 0 ↔ bytes m a n = bytes m b n) ∧
    (0 < memcmp a b n m ↔ bytes m b n < bytes m a n) := by
  refine ⟨compareBytes_lt, compareBytes_eq_zero, ?_⟩
  rw [memcmp, ← neg_lt_zero, compareBytes_neg]
  exact compareBytes_lt

theorem memcmp_memcpy (hdest : dest.toNat + n ≤ 2 ^ 64) (hb : b.toNat + n ≤ 2 ^ 64)
    (hdisjoint : dest.toNat + n ≤ b.toNat ∨ b.toNat + n ≤ dest.toNat) :
    memcmp dest b n (memcpy dest b n m).2 = 0 := by
  have hmoved := memcpy_moved (m := m) hdest hb hdisjoint
  rw [(memcmp_orders ..).2.1, bytes_eq_iff]
  intro i hi
  rw [hmoved.copied i (Nat.zero_le i) hi]
  refine (hmoved.frame _ fun j _ hj => ?_).symm
  exact add_ne_add hdest hb hi hj (by omega)

/-- Bytes are compared as unsigned. -/
example : memcmp 0 1 1 (fun c => if c = 0 then 0x80 else 0x7F) = 1 := by decide

end FerricK.Mem
