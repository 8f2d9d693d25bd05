import FerricK.Lib.Bytes

namespace FerricK.Mem

open Bytes

abbrev Memory := BitVec 64 → UInt8

variable {m : Memory} {dest src : BitVec 64} {n : Nat}

/-- `p.add(i)`, which wraps at the end of the address space. -/
def add (p : BitVec 64) (i : Nat) : BitVec 64 := p + BitVec.ofNat 64 i

def copyByte (dest src : BitVec 64) (i : Nat) (m : Memory) : Memory :=
  Function.update m (add dest i) (m (add src i))

/-- The loop that counts `i` up, with `left` iterations to go. -/
def copyUp (dest src : BitVec 64) : (left i : Nat) → Memory → Memory
  | 0, _, m => m
  | left + 1, i, m => copyUp dest src left (i + 1) (copyByte dest src i m)

def copyDown (dest src : BitVec 64) : (i : Nat) → Memory → Memory
  | 0, m => m
  | i + 1, m => copyDown dest src i (copyByte dest src i m)

def memcpy (dest src : BitVec 64) (n : Nat) (m : Memory) : BitVec 64 × Memory :=
  (dest, copyUp dest src n 0 m)

def memmove (dest src : BitVec 64) (n : Nat) (m : Memory) : BitVec 64 × Memory :=
  if dest ≤ src then (dest, copyUp dest src n 0 m) else (dest, copyDown dest src n m)

theorem toNat_add (hdest : dest.toNat + n ≤ 2 ^ 64) (hi : i < n) :
    (add dest i).toNat = dest.toNat + i := by
  rw [add, BitVec.toNat_add, BitVec.toNat_ofNat, Nat.add_mod_mod, Nat.mod_eq_of_lt (by omega)]

theorem add_inj (hdest : dest.toNat + n ≤ 2 ^ 64) (hi : i < n) (hj : j < n) :
    add dest i = add dest j ↔ i = j := by
  rw [← BitVec.toNat_inj, toNat_add hdest hi, toNat_add hdest hj]
  omega

theorem add_ne_add (hdest : dest.toNat + n ≤ 2 ^ 64) (hsrc : src.toNat + n ≤ 2 ^ 64) (hi : i < n)
    (hj : j < n) (h : src.toNat + i ≠ dest.toNat + j) : add src i ≠ add dest j := by
  rw [ne_eq, ← BitVec.toNat_inj, toNat_add hsrc hi, toNat_add hdest hj]
  exact h

theorem copyUp_moved (hdest : dest.toNat + n ≤ 2 ^ 64) (hsrc : src.toNat + n ≤ 2 ^ 64)
    (hread : ∀ i < n, ∀ j < i, src.toNat + i ≠ dest.toNat + j) {m₀ : Memory} {left : Nat}
    (hleft : i + left = n) (h : Moved m₀ m (add dest) (add src) 0 i) :
    Moved m₀ (copyUp dest src left i m) (add dest) (add src) 0 n := by
  induction left generalizing i m with
  | zero =>
    obtain rfl : i = n := hleft
    exact h
  | succ left ih =>
    refine ih (by omega) (h.up ?_ ?_ (Nat.zero_le i))
    · intro j _ hj
      exact add_ne_add hdest hsrc (by omega) (by omega) (hread i (by omega) j hj)
    · intro j _ hj
      rw [ne_eq, add_inj hdest (by omega) (by omega)]
      omega

theorem copyDown_moved (hdest : dest.toNat + n ≤ 2 ^ 64) (hsrc : src.toNat + n ≤ 2 ^ 64)
    (hread : ∀ i < n, ∀ j < n, i < j → src.toNat + i ≠ dest.toNat + j) {m₀ : Memory}
    (hi : i ≤ n) (h : Moved m₀ m (add dest) (add src) i n) :
    Moved m₀ (copyDown dest src i m) (add dest) (add src) 0 n := by
  induction i generalizing m with
  | zero => exact h
  | succ i ih =>
    refine ih (by omega) (h.down ?_ ?_ (by omega))
    · intro j hj hjn
      exact add_ne_add hdest hsrc (by omega) hjn (hread i (by omega) j hjn hj)
    · intro j hj hjn
      rw [ne_eq, add_inj hdest hjn (by omega)]
      omega

/-- Whatever the overlap, every byte is read before it is overwritten. -/
theorem memmove_moved (hdest : dest.toNat + n ≤ 2 ^ 64) (hsrc : src.toNat + n ≤ 2 ^ 64) :
    Moved m (memmove dest src n m).2 (add dest) (add src) 0 n := by
  unfold memmove
  split
  · rename_i h
    have hle : dest.toNat ≤ src.toNat := h
    exact copyUp_moved hdest hsrc (by omega) (Nat.zero_add n) (.refl m _ _ 0)
  · rename_i h
    have hlt : src.toNat < dest.toNat := Nat.lt_of_not_le h
    exact copyDown_moved hdest hsrc (by omega) le_rfl (.refl m _ _ n)

theorem memcpy_moved (hdest : dest.toNat + n ≤ 2 ^ 64) (hsrc : src.toNat + n ≤ 2 ^ 64)
    (hdisjoint : dest.toNat + n ≤ src.toNat ∨ src.toNat + n ≤ dest.toNat) :
    Moved m (memcpy dest src n m).2 (add dest) (add src) 0 n :=
  copyUp_moved hdest hsrc (by omega) (Nat.zero_add n) (.refl m _ _ 0)

theorem memmove_copies (m : Memory) (dest src : BitVec 64) (n : Nat)
    (hdest : dest.toNat + n ≤ 2 ^ 64) (hsrc : src.toNat + n ≤ 2 ^ 64) :
    (∀ i < n, (memmove dest src n m).2 (add dest i) = m (add src i)) ∧
    (∀ a, a.toNat < dest.toNat ∨ dest.toNat + n ≤ a.toNat → (memmove dest src n m).2 a = m a) ∧
    (dest.toNat + n ≤ src.toNat ∨ src.toNat + n ≤ dest.toNat →
      memcpy dest src n m = memmove dest src n m) := by
  have hmoved : Moved m (memmove dest src n m).2 (add dest) (add src) 0 n :=
    memmove_moved hdest hsrc
  refine ⟨fun i hi => hmoved.copied i (Nat.zero_le i) hi, ?_, ?_⟩
  · intro a ha
    refine hmoved.frame a fun i _ hi heq => ?_
    rw [heq, toNat_add hdest hi] at ha
    omega
  · intro hdisjoint
    have hreturn : (memmove dest src n m).1 = dest := by
      unfold memmove
      split <;> rfl
    exact Prod.ext hreturn.symm ((memcpy_moved hdest hsrc hdisjoint).unique hmoved)

theorem memmove_copies_overlap :
    (0x1003#64).toNat + 5 ≤ 2 ^ 64 ∧ (0x1000#64).toNat + 5 ≤ 2 ^ 64 ∧
    ∀ i < 5, (memmove 0x1003 0x1000 5 fun a => .ofNat a.toNat).2 (add 0x1003 i) =
      .ofNat (add 0x1000 i).toNat :=
  ⟨by decide, by decide,
    (memmove_copies (fun a => .ofNat a.toNat) 0x1003 0x1000 5 (by decide) (by decide)).1⟩

/-- `memcpy` on the same region reads what it has written. -/
example : (memcpy 1 0 3 fun a => .ofNat a.toNat).2 3 = 0 := by decide

end FerricK.Mem
