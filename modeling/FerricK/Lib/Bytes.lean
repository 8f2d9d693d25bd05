import Mathlib.Data.Nat.Digits.Lemmas
import Mathlib.Data.BitVec
import Mathlib.Logic.Function.Basic
import Mathlib.Tactic.Ring

namespace Bytes

section Span

variable {A V : Type*} [Add A] [One A]

def span (a : A) : Nat → List A
  | 0 => []
  | n + 1 => a :: span (a + 1) n

def load (m : A → V) (a : A) : Nat → List V
  | 0 => []
  | n + 1 => m a :: load m (a + 1) n

@[simp] theorem length_span (a : A) (n : Nat) : (span a n).length = n := by
  induction n generalizing a with
  | zero => rfl
  | succ n ih => simp [span, ih]

theorem load_eq_map (m : A → V) (a : A) (n : Nat) : load m a n = (span a n).map m := by
  induction n generalizing a with
  | zero => rfl
  | succ n ih => simp [load, span, ih]

@[simp] theorem length_load (m : A → V) (a : A) (n : Nat) : (load m a n).length = n := by
  simp [load_eq_map]

theorem load_inj {m m' : A → V} : load m a n = load m' a n ↔ ∀ x ∈ span a n, m x = m' x := by
  rw [load_eq_map, load_eq_map, List.map_inj_left]

theorem load_congr {m m' : A → V} (h : ∀ x ∈ span a n, m x = m' x) :
    load m a n = load m' a n :=
  load_inj.mpr h

variable [DecidableEq A]

def store (m : A → V) (a : A) : List V → A → V
  | [] => m
  | b :: bs => Function.update (store m (a + 1) bs) a b

theorem store_of_not_mem {m : A → V} {bs : List V} (h : x ∉ span a bs.length) :
    store m a bs x = m x := by
  induction bs generalizing a with
  | nil => rfl
  | cons b bs ih =>
    simp only [List.length_cons, span, List.mem_cons, not_or] at h
    rw [store, Function.update_of_ne h.1, ih h.2]

theorem store_update {m : A → V} {bs : List V} (h : x ∉ span a bs.length) (v : V) :
    store (Function.update m x v) a bs = Function.update (store m a bs) x v := by
  induction bs generalizing a with
  | nil => rfl
  | cons b bs ih =>
    simp only [List.length_cons, span, List.mem_cons, not_or] at h
    rw [store, store, ih h.2, Function.update_comm h.1]

theorem load_store {m : A → V} {bs : List V} (h : (span a bs.length).Nodup) :
    load (store m a bs) a bs.length = bs := by
  induction bs generalizing a with
  | nil => rfl
  | cons b bs ih =>
    simp only [List.length_cons, span, List.nodup_cons] at h
    have htail : load (store m a (b :: bs)) (a + 1) bs.length =
        load (store m (a + 1) bs) (a + 1) bs.length := by
      apply load_congr
      intro x hx
      rw [store, Function.update_of_ne]
      rintro rfl
      exact h.1 hx
    rw [List.length_cons, load, htail, ih h.2, store, Function.update_self]

end Span

theorem mem_span {A : Type*} [AddMonoidWithOne A] {x a : A} {n : Nat} :
    x ∈ span a n ↔ ∃ i < n, x = a + (i : A) := by
  induction n generalizing a with
  | zero => simp [span]
  | succ n ih =>
    rw [span, List.mem_cons, ih]
    constructor
    · rintro (rfl | ⟨i, hi, rfl⟩)
      · exact ⟨0, by omega, by simp⟩
      · exact ⟨i + 1, by omega, by rw [add_assoc, Nat.add_comm i 1, Nat.cast_add, Nat.cast_one]⟩
    · rintro ⟨_ | i, hi, rfl⟩
      · simp
      · right
        exact ⟨i, by omega, by rw [add_assoc, Nat.add_comm i 1, Nat.cast_add, Nat.cast_one]⟩

theorem mem_span_nat {x a n : Nat} : x ∈ span a n ↔ a ≤ x ∧ x < a + n := by
  rw [mem_span]
  constructor
  · rintro ⟨i, hi, rfl⟩
    simp only [Nat.cast_id]
    omega
  · rintro ⟨ha, hn⟩
    exact ⟨x - a, by omega, by simp only [Nat.cast_id]; omega⟩

theorem nodup_span_nat (a n : Nat) : (span a n).Nodup := by
  induction n generalizing a with
  | zero => simp [span]
  | succ n ih => simp [span, ih, mem_span_nat]

theorem load_store_nat {V : Type*} {m : Nat → V} {a n : Nat} {bs : List V} (h : bs.length = n) :
    load (store m a bs) a n = bs := by
  rw [← h, load_store (nodup_span_nat a _)]

theorem load_store_of_disjoint {V : Type*} {m : Nat → V} {a b n : Nat} {bs : List V}
    (h : a + n ≤ b ∨ b + bs.length ≤ a) : load (store m b bs) a n = load m a n := by
  apply load_congr
  intro x hx
  apply store_of_not_mem
  intro hx'
  rw [mem_span_nat] at hx hx'
  omega

theorem foldl_store {V : Type*} (m : Nat → V) (a k : Nat) (bs : List V) :
    (bs.zipIdx k).foldl (fun m p => store m (a + p.2) [p.1]) m = store m (a + k) bs := by
  induction bs generalizing m k with
  | nil => rfl
  | cons b bs ih =>
    have hfresh : a + k ∉ span (a + (k + 1)) bs.length := by
      rw [mem_span_nat]
      omega
    rw [List.zipIdx_cons, List.foldl_cons, ih, store, store, store_update hfresh, store]
    rfl

theorem load_concat {V : Type*} (m : Nat → V) (a n : Nat) :
    load m a (n + 1) = load m a n ++ [m (a + n)] := by
  induction n generalizing a with
  | zero => rfl
  | succ n ih =>
    rw [load, ih, load, List.cons_append, Nat.add_assoc, Nat.add_comm 1]

/-- Of a block read from `m₀`, the bytes from `lo` up to `hi` have arrived, and nothing else has
changed. -/
structure Moved {A V : Type*} (m₀ m : A → V) (d s : Nat → A) (lo hi : Nat) : Prop where
  copied : ∀ i, lo ≤ i → i < hi → m (d i) = m₀ (s i)
  frame : ∀ a, (∀ i, lo ≤ i → i < hi → a ≠ d i) → m a = m₀ a

namespace Moved

variable {A V : Type*} {m₀ m : A → V} {d s : Nat → A} {lo hi : Nat}

theorem refl (m : A → V) (d s : Nat → A) (k : Nat) : Moved m m d s k k where
  copied := by omega
  frame := fun _ _ => rfl

theorem unique {m' : A → V} (h : Moved m₀ m d s lo hi) (h' : Moved m₀ m' d s lo hi) :
    m = m' := by
  funext a
  by_cases ha : ∃ i, lo ≤ i ∧ i < hi ∧ a = d i
  · obtain ⟨i, hlo, hhi, rfl⟩ := ha
    rw [h.copied i hlo hhi, h'.copied i hlo hhi]
  · have hout : ∀ i, lo ≤ i → i < hi → a ≠ d i := fun i hlo hhi heq => ha ⟨i, hlo, hhi, heq⟩
    rw [h.frame a hout, h'.frame a hout]

variable [DecidableEq A]

theorem up (h : Moved m₀ m d s lo hi) (hread : ∀ i, lo ≤ i → i < hi → s hi ≠ d i)
    (hfresh : ∀ i, lo ≤ i → i < hi → d i ≠ d hi) (hle : lo ≤ hi) :
    Moved m₀ (Function.update m (d hi) (m (s hi))) d s lo (hi + 1) where
  copied := by
    intro i hlo hhi
    obtain hi' | rfl := Nat.lt_succ_iff_lt_or_eq.mp hhi
    · rw [Function.update_of_ne (hfresh i hlo hi'), h.copied i hlo hi']
    · rw [Function.update_self, h.frame _ hread]
  frame := by
    intro a ha
    rw [Function.update_of_ne (ha hi hle (by omega)), h.frame a]
    exact fun i hlo hhi => ha i hlo (by omega)

theorem down (h : Moved m₀ m d s (lo + 1) hi) (hread : ∀ i, lo < i → i < hi → s lo ≠ d i)
    (hfresh : ∀ i, lo < i → i < hi → d i ≠ d lo) (hlt : lo < hi) :
    Moved m₀ (Function.update m (d lo) (m (s lo))) d s lo hi where
  copied := by
    intro i hlo hhi
    obtain rfl | hlo' := Nat.eq_or_lt_of_le hlo
    · rw [Function.update_self, h.frame _ hread]
    · rw [Function.update_of_ne (hfresh i hlo' hhi), h.copied i hlo' hhi]
  frame := by
    intro a ha
    rw [Function.update_of_ne (ha lo le_rfl hlt), h.frame a]
    exact fun i hlo hhi => ha i (by omega) hhi

end Moved

theorem mem_span_bitVec {x a : BitVec w} : x ∈ span a n ↔ ∃ i < n, x = a + BitVec.ofNat w i :=
  mem_span

theorem forall_byte {P : UInt8 → Prop} (h : ∀ n : Fin 256, P (UInt8.ofNat n)) (b : UInt8) :
    P b := by
  have hb := h ⟨b.toNat, b.toNat_lt⟩
  rwa [UInt8.ofNat_toNat] at hb

def ofLE (bs : List UInt8) : Nat := Nat.ofDigits 256 (bs.map UInt8.toNat)

def toLE : Nat → Nat → List UInt8
  | 0, _ => []
  | n + 1, v => UInt8.ofNat v :: toLE n (v / 256)

@[simp] theorem length_toLE (n v : Nat) : (toLE n v).length = n := by
  induction n generalizing v with
  | zero => rfl
  | succ n ih => simp [toLE, ih]

theorem take_toLE (h : n ≤ k) (v : Nat) : (toLE k v).take n = toLE n v := by
  induction n generalizing k v with
  | zero => rfl
  | succ n ih =>
    obtain ⟨k, rfl⟩ := Nat.exists_eq_add_one.mpr (Nat.zero_lt_of_lt h)
    rw [toLE, List.take_succ_cons, ih (Nat.le_of_succ_le_succ h), toLE]

theorem ofLE_lt (bs : List UInt8) : ofLE bs < 256 ^ bs.length := by
  have h := Nat.ofDigits_lt_base_pow_length (b := 256) (l := bs.map UInt8.toNat) (by omega)
    (by simpa using fun b _ => b.toNat_lt)
  simpa [ofLE] using h

theorem ofLE_inj {bs bs' : List UInt8} (hlength : bs.length = bs'.length)
    (h : ofLE bs = ofLE bs') : bs = bs' := by
  have hbyte : ∀ (bs : List UInt8), ∀ d ∈ bs.map UInt8.toNat, d < 256 := by
    intro bs d hd
    obtain ⟨b, -, rfl⟩ := List.mem_map.mp hd
    exact b.toNat_lt
  have hmap := Nat.ofDigits_inj_of_len_eq (by decide) (by simpa using hlength) (hbyte bs)
    (hbyte bs') h
  exact (List.map_injective_iff.mpr fun _ _ => UInt8.toNat_inj.mp) hmap

theorem ofLE_concat (bs : List UInt8) (b : UInt8) :
    ofLE (bs ++ [b]) = ofLE bs + 256 ^ bs.length * b.toNat := by
  simp [ofLE, Nat.ofDigits_append]

theorem ofLE_concat_or (bs : List UInt8) (b : UInt8) :
    ofLE (bs ++ [b]) = ofLE bs ||| b.toNat * 2 ^ (8 * bs.length) := by
  have hlt : ofLE bs < 2 ^ (8 * bs.length) := by
    rw [pow_mul]
    exact ofLE_lt bs
  rw [ofLE_concat, show 256 = 2 ^ 8 by rfl, ← pow_mul, Nat.or_comm, Nat.mul_comm b.toNat,
    ← Nat.two_pow_add_eq_or_of_lt hlt, Nat.add_comm]

theorem ofLE_toLE (h : v < 256 ^ n) : ofLE (toLE n v) = v := by
  induction n generalizing v with
  | zero => simp_all [toLE, ofLE]
  | succ n ih =>
    have hv : v / 256 < 256 ^ n := Nat.div_lt_of_lt_mul (by rwa [pow_succ'] at h)
    have htail := ih hv
    simp only [ofLE] at htail
    simp only [toLE, ofLE, List.map_cons, Nat.ofDigits_cons, htail, UInt8.toNat_ofNat']
    omega

section Word

variable {A : Type*} [AddMonoidWithOne A]

def loadWord (m : A → UInt8) (a : A) : Nat := ofLE (load m a 8)

theorem loadWord_lt (m : A → UInt8) (a : A) : loadWord m a < 2 ^ 64 := by
  have h := ofLE_lt (load m a 8)
  simpa [loadWord] using h

theorem loadWord_congr {m m' : A → UInt8} {a : A} (h : ∀ x ∈ span a 8, m x = m' x) :
    loadWord m a = loadWord m' a := congrArg ofLE (load_congr h)

variable [DecidableEq A]

def storeWord (m : A → UInt8) (a : A) (v : Nat) : A → UInt8 := store m a (toLE 8 v)

theorem storeWord_of_not_mem {m : A → UInt8} {a x : A} {v : Nat} (h : x ∉ span a 8) :
    storeWord m a v x = m x := store_of_not_mem (by simpa using h)

theorem loadWord_storeWord {m : A → UInt8} {a : A} {v : Nat} (hspan : (span a 8).Nodup)
    (hv : v < 2 ^ 64) : loadWord (storeWord m a v) a = v := by
  have hload : load (store m a (toLE 8 v)) a 8 = toLE 8 v := by
    have hnodup : (span a (toLE 8 v).length).Nodup := by simpa using hspan
    simpa using load_store (m := m) hnodup
  rw [loadWord, storeWord, hload, ofLE_toLE (by simpa using hv)]

theorem loadWord_storeWord_of_disjoint {m : A → UInt8} {a b : A} {v : Nat}
    (h : ∀ x ∈ span b 8, x ∉ span a 8) : loadWord (storeWord m a v) b = loadWord m b :=
  loadWord_congr fun x hx => storeWord_of_not_mem (h x hx)

end Word

/-- Words at multiples of 8 do not overlap, so on them memory is a plain map. -/
theorem loadWord_storeWord_aligned {m : Nat → UInt8} {a b v : Nat} (ha : a % 8 = 0)
    (hb : b % 8 = 0) (hv : v < 2 ^ 64) :
    loadWord (storeWord m a v) b = if b = a then v else loadWord m b := by
  split
  · subst b
    exact loadWord_storeWord (nodup_span_nat _ _) hv
  · apply loadWord_storeWord_of_disjoint
    intro x hx hx'
    rw [mem_span_nat] at hx hx'
    omega

end Bytes
