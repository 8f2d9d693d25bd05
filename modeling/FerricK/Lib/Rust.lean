import Mathlib.Algebra.Ring.Int.Defs
import Mathlib.Algebra.Ring.Nat
import Mathlib.Data.List.Basic
import Mathlib.Tactic.Common

namespace Rust

/-- Why a call does not return.  All but the last are what a build with overflow and pointer
checks panics on; `fuel` is a loop that has outrun the bound its model gives it. -/
inductive Stop
  | overflow
  | divide
  | bounds
  | deref
  | expect (msg : String)
  | fuel
  deriving DecidableEq, Repr

end Rust

abbrev Rust := Except Rust.Stop

namespace Rust

@[simp] theorem ok_bind (a : α) (f : α → Rust β) : (Except.ok a : Rust α) >>= f = f a := rfl

@[simp] theorem error_bind (e : Stop) (f : α → Rust β) :
    (Except.error e : Rust α) >>= f = .error e := rfl

@[simp] theorem pure_eq_ok (a : α) : (pure a : Rust α) = .ok a := rfl

theorem bind_eq_ok {x : Rust α} {f : α → Rust β} {b : β} :
    x >>= f = .ok b ↔ ∃ a, x = .ok a ∧ f a = .ok b := by
  cases x with
  | error e => simp
  | ok a => simp

def uadd (w a b : Nat) : Rust Nat := if a + b < 2 ^ w then .ok (a + b) else .error .overflow
def usub (a b : Nat) : Rust Nat := if b ≤ a then .ok (a - b) else .error .overflow
def umul (w a b : Nat) : Rust Nat := if a * b < 2 ^ w then .ok (a * b) else .error .overflow
def udiv (a b : Nat) : Rust Nat := if b = 0 then .error .divide else .ok (a / b)

/-- `a << k` at width `w`: only the shift amount is checked, high bits are dropped. -/
def ushl (w a k : Nat) : Rust Nat := if k < w then .ok (a * 2 ^ k % 2 ^ w) else .error .overflow

def checkedAdd (w a b : Nat) : Option Nat := if a + b < 2 ^ w then some (a + b) else none
def checkedMul (w a b : Nat) : Option Nat := if a * b < 2 ^ w then some (a * b) else none

def iadd (w : Nat) (a b : Int) : Rust Int :=
  if -2 ^ (w - 1) ≤ a + b ∧ a + b < 2 ^ (w - 1) then .ok (a + b) else .error .overflow

def asI32 (a : Nat) : Int := if a < 2 ^ 31 then a else a - 2 ^ 32
def asU32 (a : Int) : Nat := (a % 2 ^ 32).toNat

def unot (w a : Nat) : Nat := 2 ^ w - 1 - a

/-- `compare_exchange` on a cell that holds `cur`: what the caller gets, and the cell after. -/
def compareExchange [DecidableEq α] (cur expected new : α) : Except α α × α :=
  if cur = expected then (.ok cur, new) else (.error cur, cur)

theorem uadd_of_lt (h : a + b < 2 ^ w) : uadd w a b = .ok (a + b) := if_pos h
theorem usub_of_le (h : b ≤ a) : usub a b = .ok (a - b) := if_pos h
theorem umul_of_lt (h : a * b < 2 ^ w) : umul w a b = .ok (a * b) := if_pos h
theorem udiv_of_pos (h : 0 < b) : udiv a b = .ok (a / b) := if_neg (by omega)
theorem ushl_of_lt (h : k < w) : ushl w a k = .ok (a * 2 ^ k % 2 ^ w) := if_pos h

theorem uadd_eq_ok : uadd w a b = .ok c ↔ a + b < 2 ^ w ∧ c = a + b := by
  unfold uadd; split <;> grind

theorem umul_eq_ok : umul w a b = .ok c ↔ a * b < 2 ^ w ∧ c = a * b := by
  unfold umul; split <;> grind

theorem checkedAdd_eq_some : checkedAdd w a b = some c ↔ a + b < 2 ^ w ∧ c = a + b := by
  unfold checkedAdd; split <;> grind

theorem toNat_pos {a : UInt64} (h : a ≠ 0) : 0 < a.toNat := by
  rw [Nat.pos_iff_ne_zero, ne_eq, ← UInt64.toNat_zero, UInt64.toNat_inj]
  exact h

def saturatingSub (a b : UInt64) : UInt64 := if b ≤ a then a - b else 0

def saturatingAdd (a b : UInt64) : UInt64 :=
  if a.toNat + b.toNat < 2 ^ 64 then a + b else .ofNat (2 ^ 64 - 1)

@[simp] theorem toNat_saturatingSub (a b : UInt64) :
    (saturatingSub a b).toNat = a.toNat - b.toNat := by
  unfold saturatingSub
  split
  · rename_i h
    exact UInt64.toNat_sub_of_le a b h
  · rename_i h
    have hlt : a.toNat < b.toNat := UInt64.lt_iff_toNat_lt.mp (UInt64.not_le.mp h)
    rw [UInt64.toNat_zero, Nat.sub_eq_zero_of_le (Nat.le_of_lt hlt)]

theorem toNat_saturatingAdd {a b : UInt64} (h : a.toNat + b.toNat < 2 ^ 64) :
    (saturatingAdd a b).toNat = a.toNat + b.toNat := by
  rw [saturatingAdd, if_pos h, UInt64.toNat_add, Nat.mod_eq_of_lt h]

def index (v : List α) (i : Nat) : Rust α :=
  match v[i]? with
  | some a => .ok a
  | none => .error .bounds

def store (v : List α) (i : Nat) (a : α) : Rust (List α) :=
  if i < v.length then .ok (v.set i a) else .error .bounds

def slice (v : List α) (a b : Nat) : Rust (List α) :=
  if a ≤ b ∧ b ≤ v.length then .ok ((v.drop a).take (b - a)) else .error .bounds

def expect (msg : String) : Option α → Rust α
  | some a => .ok a
  | none => .error (.expect msg)

@[simp] theorem expect_some (msg : String) (a : α) : expect msg (some a) = .ok a := rfl

theorem index_of_lt {v : List α} (h : i < v.length) : index v i = .ok v[i] := by
  simp [index, h]

theorem index_eq_ok {v : List α} : index v i = .ok a ↔ v[i]? = some a := by
  unfold index; split <;> simp_all

theorem store_of_lt {v : List α} (h : i < v.length) : store v i a = .ok (v.set i a) := if_pos h

theorem slice_of_le {v : List α} (h : a ≤ b ∧ b ≤ v.length) :
    slice v a b = .ok ((v.drop a).take (b - a)) := if_pos h

def forRange : Nat → (Nat → σ → Rust σ) → σ → Rust σ
  | 0, _, s => .ok s
  | n + 1, f, s => forRange n f s >>= f n

def forEach : List α → (α → σ → Rust σ) → σ → Rust σ
  | [], _, s => .ok s
  | a :: l, f, s => f a s >>= forEach l f

@[simp] theorem forRange_zero (f : Nat → σ → Rust σ) (s : σ) : forRange 0 f s = .ok s := rfl

theorem forRange_succ (n : Nat) (f : Nat → σ → Rust σ) (s : σ) :
    forRange (n + 1) f s = forRange n f s >>= f n := rfl

/-- The rule for counted loops: an invariant every iteration keeps holds at the end,
and the loop gets there. -/
theorem forRange_rule (I : Nat → σ → Prop) {f : Nat → σ → Rust σ} {s : σ} (h₀ : I 0 s)
    (step : ∀ i < n, ∀ s, I i s → ∃ s', f i s = .ok s' ∧ I (i + 1) s') :
    ∃ s', forRange n f s = .ok s' ∧ I n s' := by
  induction n with
  | zero => exact ⟨s, rfl, h₀⟩
  | succ n ih =>
    obtain ⟨s₁, hs₁, hI₁⟩ := ih (fun i hi => step i (by omega))
    obtain ⟨s₂, hs₂, hI₂⟩ := step n (by omega) s₁ hI₁
    exact ⟨s₂, by rw [forRange_succ, hs₁, ok_bind, hs₂], hI₂⟩

theorem forRange_error {f : Nat → σ → Rust σ} {s : σ} {e : Stop} (hn : 0 < n)
    (h : f 0 s = .error e) : forRange n f s = .error e := by
  induction n, hn using Nat.le_induction with
  | base => rw [forRange_succ, forRange_zero, ok_bind, h]
  | succ n hn ih => rw [forRange_succ, ih, error_bind]

@[simp] theorem forEach_nil (f : α → σ → Rust σ) (s : σ) : forEach [] f s = .ok s := rfl

@[simp] theorem forEach_cons (a : α) (l : List α) (f : α → σ → Rust σ) (s : σ) :
    forEach (a :: l) f s = f a s >>= forEach l f := rfl

theorem forEach_append (l r : List α) (f : α → σ → Rust σ) (s : σ) :
    forEach (l ++ r) f s = forEach l f s >>= forEach r f := by
  induction l generalizing s with
  | nil => rfl
  | cons a l ih =>
    simp only [List.cons_append, forEach_cons]
    cases f a s with
    | error e => rfl
    | ok s' => simp [ih]

theorem forEach_rule (I : σ → Prop) {f : α → σ → Rust σ} {s : σ} (h₀ : I s)
    (step : ∀ a ∈ l, ∀ s, I s → ∃ s', f a s = .ok s' ∧ I s') :
    ∃ s', forEach l f s = .ok s' ∧ I s' := by
  induction l generalizing s with
  | nil => exact ⟨s, rfl, h₀⟩
  | cons a l ih =>
    obtain ⟨hhead, htail⟩ := List.forall_mem_cons.mp step
    obtain ⟨s₁, hs₁, hI₁⟩ := hhead s h₀
    obtain ⟨s₂, hs₂, hI₂⟩ := ih hI₁ htail
    exact ⟨s₂, by rw [forEach_cons, hs₁, ok_bind, hs₂], hI₂⟩

theorem forEach_keeps (I : σ → Prop) {f : α → σ → Rust σ} {s s' : σ} (h₀ : I s)
    (step : ∀ a s s', I s → f a s = .ok s' → I s') (h : forEach l f s = .ok s') : I s' := by
  induction l generalizing s with
  | nil =>
    cases h
    exact h₀
  | cons a l ih =>
    obtain ⟨s₁, hs₁, hrest⟩ := bind_eq_ok.mp h
    exact ih (step a s s₁ h₀ hs₁) hrest

end Rust
