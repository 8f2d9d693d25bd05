import FerricK.Lib.Rust
import Mathlib.Data.List.Range

namespace Rust

/-- A piece of the body of a function with result `ρ`: it stops, returns, or goes on. -/
abbrev Body (ρ : Type) := ExceptT ρ Rust

namespace Body

def ret (r : ρ) : Body ρ α := throw r

def call (x : Body ρ ρ) : Rust ρ := do
  match ← x.run with
  | .error r => return r
  | .ok r => return r

/-- The piece does not stop, and `Q` is true of what it goes on with. -/
def Runs (x : Body ρ α) (Q : α → Prop) : Prop :=
  match x.run with
  | .error _ => False
  | .ok (.error _) => True
  | .ok (.ok a) => Q a

variable {x : Body ρ α} {f : α → Body ρ β} {Q : β → Prop}

theorem call_returns_iff {x : Body ρ ρ} : (∃ r, call x = .ok r) ↔ Runs x fun _ => True := by
  unfold call Runs
  cases x.run with
  | error e => simp
  | ok r => cases r <;> simp

@[simp] theorem runs_pure (a : β) : Runs (pure a : Body ρ β) Q ↔ Q a := .rfl

@[simp] theorem runs_ret (r : ρ) : Runs (ret r) Q ↔ True := .rfl

@[simp] theorem runs_bind : Runs (x >>= f) Q ↔ Runs x fun a => Runs (f a) Q := by
  have hbind : (x >>= f).run = x.run >>= ExceptT.bindCont f := rfl
  unfold Runs
  rw [hbind]
  cases x.run with
  | error e => rfl
  | ok r => cases r <;> rfl

@[simp] theorem runs_lift {x : Rust β} :
    Runs (liftM x : Body ρ β) Q ↔ ∃ b, x = .ok b ∧ Q b := by
  have hlift : (liftM x : Body ρ β).run = x.map .ok := rfl
  unfold Runs
  rw [hlift]
  cases x with
  | error e => simp [Except.map]
  | ok b => simp [Except.map]

theorem runs_ite {c : Prop} [Decidable c] {x y : Body ρ β} :
    Runs (if c then x else y) Q ↔ (c → Runs x Q) ∧ (¬ c → Runs y Q) := by
  split <;> simp_all

@[simp] theorem exists_uadd {Q : Nat → Prop} :
    (∃ c, uadd w a b = .ok c ∧ Q c) ↔ a + b < 2 ^ w ∧ Q (a + b) := by
  simp only [uadd_eq_ok, and_assoc, exists_and_left, exists_eq_left]

@[simp] theorem exists_umul {Q : Nat → Prop} :
    (∃ c, umul w a b = .ok c ∧ Q c) ↔ a * b < 2 ^ w ∧ Q (a * b) := by
  simp only [umul_eq_ok, and_assoc, exists_and_left, exists_eq_left]

@[simp] theorem exists_usub {Q : Nat → Prop} :
    (∃ c, usub a b = .ok c ∧ Q c) ↔ b ≤ a ∧ Q (a - b) := by
  unfold usub
  split <;> simp_all

@[simp] theorem exists_slice {v : List α} {Q : List α → Prop} :
    (∃ c, slice v a b = .ok c ∧ Q c) ↔ (a ≤ b ∧ b ≤ v.length) ∧ Q ((v.drop a).take (b - a)) := by
  unfold slice
  split <;> simp_all

theorem Runs.mono {x : Body ρ β} {R : β → Prop} (h : Runs x Q) (hQ : ∀ b, Q b → R b) :
    Runs x R := by
  unfold Runs at h ⊢
  cases hx : x.run with
  | error e => rw [hx] at h; exact h
  | ok r =>
    rw [hx] at h
    cases r with
    | error r => trivial
    | ok b => exact hQ b h

/-- A loop over `0..n` whose `i`th turn starts in `state i`: each turn reached needs what it needs,
and a turn is reached where none before it returns. -/
theorem runs_foldlM_range {f : σ → Nat → Body ρ σ} {needs returns : Nat → Prop} (state : Nat → σ)
    (n : Nat) (turn : ∀ i < n, ∀ Q : σ → Prop,
      Runs (f (state i) i) Q ↔ needs i ∧ (¬ returns i → Q (state (i + 1)))) (Q : σ → Prop) :
    Runs ((List.range n).foldlM f (state 0)) Q ↔
      (∀ i < n, (∀ j < i, ¬ returns j) → needs i) ∧ ((∀ i < n, ¬ returns i) → Q (state n)) := by
  induction n generalizing Q with
  | zero => simp
  | succ n ih =>
    have hturn := turn n (by omega) Q
    rw [List.range_succ, List.foldlM_append, runs_bind, ih fun i hi => turn i (by omega)]
    simp only [List.foldlM_cons, List.foldlM_nil, bind_pure, hturn, Nat.forall_lt_succ_right]
    constructor
    · rintro ⟨hneeds, hlast⟩
      exact ⟨⟨hneeds, fun h => (hlast h).1⟩, fun h => (hlast h.1).2 h.2⟩
    · rintro ⟨⟨hneeds, hlast⟩, hnext⟩
      exact ⟨hneeds, fun h => ⟨hlast h, fun hn => hnext ⟨h, hn⟩⟩⟩

theorem runs_forM {l : List α} {f : α → Body ρ PUnit} {Q : PUnit → Prop}
    (turn : ∀ a ∈ l, Runs (f a) fun _ => True) (hQ : Q ⟨⟩) : Runs (forM l f) Q := by
  induction l with
  | nil => exact hQ
  | cons a l ih =>
    obtain ⟨hhead, htail⟩ := List.forall_mem_cons.mp turn
    rw [List.forM_cons, runs_bind]
    exact hhead.mono fun _ _ => ih htail

end Body

end Rust
