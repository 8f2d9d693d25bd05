import FerricK.Lib.Rust
import FerricK.Lib.System
import Mathlib.Data.List.Basic
import Mathlib.Logic.Function.Basic

/-! The spin lock, one atomic access at a time: threads take turns, and a load of the payload
through a guard is a step of its own, as is the store that follows it. -/

universe u v

namespace FerricK

namespace Spinlock

/-- An access to the payload.  A store may use what the guard's holder loaded before. -/
inductive Access (T : Type v)
  | load
  | store (f : Option T → T)

/-- What threads do. `spin` is one turn of the loop in `lock`: its exchange is the weak one, which
may fail for no reason. -/
inductive Action (T : Type v)
  | lock
  | spin (spurious : Bool)
  | tryLock
  | load (guard : Nat)
  | store (guard : Nat) (f : Option T → T)
  | drop (guard : Nat)

end Spinlock

structure SpinlockGuard (ι : Type u) (T : Type v) where
  owner : ι
  loaded : Option T
  accesses : List (Spinlock.Access T)
  dropped : Bool

/-- `guards` are all that were ever handed out, the first one first. -/
structure Spinlock (ι : Type u) (T : Type v) where
  locked : Bool
  value : T
  spinning : ι → Bool
  guards : List (SpinlockGuard ι T)

namespace Spinlock

open Rust

variable {ι : Type u} {T : Type v}

def new (value : T) : Spinlock ι T where
  locked := false
  value := value
  spinning _ := false
  guards := []

def handOut (s : Spinlock ι T) (t : ι) : Spinlock ι T :=
  { s with
    guards := s.guards ++ [{ owner := t, loaded := none, accesses := [], dropped := false }] }

def tryLock (s : Spinlock ι T) (t : ι) : Option Nat × Spinlock ι T :=
  match compareExchange s.locked false true with
  | (.ok _, locked) => (some s.guards.length, { s with locked := locked }.handOut t)
  | (.error _, locked) => (none, { s with locked := locked })

def Live (s : Spinlock ι T) (k : Nat) : Prop := ∃ g ∈ s.guards[k]?, g.dropped = false

section

variable [DecidableEq ι]

def spin (s : Spinlock ι T) (t : ι) (spurious : Bool) : Spinlock ι T :=
  match if spurious then (.error s.locked, s.locked) else compareExchange s.locked false true with
  | (.ok _, locked) =>
    { s with locked := locked, spinning := Function.update s.spinning t false }.handOut t
  | (.error _, locked) => { s with locked := locked }

def held (s : Spinlock ι T) (t : ι) (k : Nat) : Option (SpinlockGuard ι T) :=
  s.guards[k]?.filter fun g => g.owner = t ∧ g.dropped = false ∧ s.spinning t = false

def load (s : Spinlock ι T) (k : Nat) (g : SpinlockGuard ι T) : Spinlock ι T :=
  { s with
    guards := s.guards.set k
      { g with loaded := some s.value, accesses := g.accesses ++ [.load] } }

def store (s : Spinlock ι T) (k : Nat) (f : Option T → T) (g : SpinlockGuard ι T) :
    Spinlock ι T :=
  { s with
    value := f g.loaded
    guards := s.guards.set k { g with accesses := g.accesses ++ [.store f] } }

def drop (s : Spinlock ι T) (k : Nat) (g : SpinlockGuard ι T) : Spinlock ι T :=
  { s with locked := false, guards := s.guards.set k { g with dropped := true } }

def step (s : Spinlock ι T) (t : ι) : Action T → Option (Spinlock ι T)
  | .lock =>
    if s.spinning t then none else some { s with spinning := Function.update s.spinning t true }
  | .spin spurious => if s.spinning t then some (s.spin t spurious) else none
  | .tryLock => if s.spinning t then none else some (s.tryLock t).2
  | .load k => (s.held t k).map (s.load k)
  | .store k f => (s.held t k).map (s.store k f)
  | .drop k => (s.held t k).map (s.drop k)

def system (value : T) : System (Spinlock ι T) where
  init s := s = new value
  step s s' := ∃ t action, s.step t action = some s'

end

def replay : T × Option T → Access T → T × Option T
  | (value, _), .load => (value, some value)
  | (_, loaded), .store f => (f loaded, loaded)

def criticalSection (value : T) (g : SpinlockGuard ι T) : T :=
  (g.accesses.foldl replay (value, none)).1

def completed (s : Spinlock ι T) : List (SpinlockGuard ι T) := s.guards.filter (·.dropped)

/-- Either no guard is live and the payload is what the guards so far made of it, or the last
guard is, and it has loaded and stored its way from there. -/
inductive Inv (value : T) : Spinlock ι T → Prop
  | free {s : Spinlock ι T} (hlocked : s.locked = false) (hguards : ∀ g ∈ s.guards, g.dropped)
      (hvalue : s.value = s.guards.foldl criticalSection value) : Inv value s
  | held {s : Spinlock ι T} {past : List (SpinlockGuard ι T)} {g : SpinlockGuard ι T}
      (hlocked : s.locked = true) (hguards : s.guards = past ++ [g])
      (hpast : ∀ p ∈ past, p.dropped) (hlive : g.dropped = false)
      (hvalue : (s.value, g.loaded) =
        g.accesses.foldl replay (past.foldl criticalSection value, none)) : Inv value s

variable {s s' : Spinlock ι T} {t : ι} {k j : Nat} {value : T} {g : SpinlockGuard ι T}

theorem Inv.new : Inv value (new value : Spinlock ι T) :=
  .free rfl (fun _ h => absurd h (List.not_mem_nil)) rfl

theorem Inv.handOut (hguards : ∀ g ∈ s.guards, g.dropped)
    (hvalue : s.value = s.guards.foldl criticalSection value) (spinning : ι → Bool) (t : ι) :
    Inv value ({ s with locked := true, spinning := spinning }.handOut t) :=
  .held rfl rfl hguards rfl (by rw [← hvalue]; rfl)

theorem live_of_free (hguards : ∀ g ∈ s.guards, g.dropped) (k : Nat) : ¬ s.Live k := by
  rintro ⟨g, hg, hlive⟩
  exact absurd (hguards g (List.mem_of_getElem? hg)) (by simp [hlive])

theorem live_iff_of_held {past : List (SpinlockGuard ι T)} (hguards : s.guards = past ++ [g])
    (hpast : ∀ p ∈ past, p.dropped) (hlive : g.dropped = false) : s.Live k ↔ k = past.length := by
  constructor
  · rintro ⟨p, hp, hplive⟩
    rw [hguards, Option.mem_def, List.getElem?_append] at hp
    split at hp
    · exact absurd (hpast p (List.mem_of_getElem? hp)) (by simp [hplive])
    · grind
  · rintro rfl
    exact ⟨g, by simp [hguards], hlive⟩

theorem Inv.of_live (inv : Inv value s) (hg : s.guards[k]? = some g) (hlive : g.dropped = false) :
    s.locked = true ∧ ∃ past, s.guards = past ++ [g] ∧ (∀ p ∈ past, p.dropped) ∧
      (s.value, g.loaded) = g.accesses.foldl replay (past.foldl criticalSection value, none) ∧
      ∀ g', s.guards.set k g' = past ++ [g'] := by
  cases inv with
  | free _ hguards _ => exact absurd ⟨g, hg, hlive⟩ (live_of_free hguards k)
  | held hlocked hguards hpast hlast hvalue =>
    obtain rfl := (live_iff_of_held hguards hpast hlast).mp ⟨g, hg, hlive⟩
    rw [hguards, List.getElem?_concat_length, Option.some.injEq] at hg
    subst hg
    exact ⟨hlocked, _, hguards, hpast, hvalue, fun g' => by simp [hguards]⟩

theorem Inv.tryLock (inv : Inv value s) (t : ι) : Inv value (s.tryLock t).2 := by
  cases inv with
  | free hlocked hguards hvalue =>
    simp only [Spinlock.tryLock, compareExchange, hlocked, ↓reduceIte]
    exact Inv.handOut hguards hvalue s.spinning t
  | held hlocked hguards hpast hlive hvalue =>
    simp only [Spinlock.tryLock, compareExchange, hlocked, Bool.true_eq_false, ↓reduceIte]
    exact .held rfl hguards hpast hlive hvalue

theorem Inv.criticalSection {past : List (SpinlockGuard ι T)} {loaded : Option T}
    (h : (s.value, loaded) = g.accesses.foldl replay (past.foldl criticalSection value, none)) :
    s.value = (past ++ [g]).foldl Spinlock.criticalSection value := by
  rw [List.foldl_append, List.foldl_cons, List.foldl_nil, Spinlock.criticalSection, ← h]

theorem Inv.tryLock_eq_none (inv : Inv value s) (t : ι) :
    (s.tryLock t).1 = none ↔ ∃ k, s.Live k := by
  cases inv with
  | free hlocked hguards hvalue =>
    simp [Spinlock.tryLock, compareExchange, hlocked, live_of_free hguards]
  | held hlocked hguards hpast hlive hvalue =>
    simp [Spinlock.tryLock, compareExchange, hlocked, live_iff_of_held hguards hpast hlive]

/-- Who is spinning is in no clause. -/
theorem Inv.of_spinning (inv : Inv value s) (spinning : ι → Bool) :
    Inv value { s with spinning := spinning } := by
  cases inv with
  | free hlocked hguards hvalue => exact .free hlocked hguards hvalue
  | held hlocked hguards hpast hlive hvalue => exact .held hlocked hguards hpast hlive hvalue

variable [DecidableEq ι]

theorem held_eq_some (h : s.held t k = some g) : s.guards[k]? = some g ∧ g.dropped = false := by
  obtain ⟨hg, hmine⟩ := Option.filter_eq_some_iff.mp h
  exact ⟨hg, by simpa using (of_decide_eq_true hmine).2.1⟩

theorem Inv.spin (inv : Inv value s) (t : ι) (spurious : Bool) : Inv value (s.spin t spurious) := by
  cases spurious with
  | true => exact inv
  | false =>
    cases inv with
    | free hlocked hguards hvalue =>
      simp only [Spinlock.spin, compareExchange, hlocked, Bool.false_eq_true, ↓reduceIte]
      exact Inv.handOut hguards hvalue _ t
    | held hlocked hguards hpast hlive hvalue =>
      simp only [Spinlock.spin, compareExchange, hlocked, Bool.false_eq_true, Bool.true_eq_false,
        ↓reduceIte]
      exact .held rfl hguards hpast hlive hvalue

theorem Inv.access (inv : Inv value s) (h : s.held t k = some g) (a : Access T) {v : T}
    {loaded : Option T} (heffect : replay (s.value, g.loaded) a = (v, loaded)) :
    Inv value { s with
      value := v
      guards := s.guards.set k { g with loaded := loaded, accesses := g.accesses ++ [a] } } := by
  obtain ⟨hg, hlive⟩ := held_eq_some h
  obtain ⟨hlocked, past, -, hpast, hvalue, hset⟩ := inv.of_live hg hlive
  refine .held hlocked (hset _) hpast hlive ?_
  rw [List.foldl_append, ← hvalue]
  exact heffect.symm

theorem Inv.load (inv : Inv value s) (h : s.held t k = some g) : Inv value (s.load k g) :=
  inv.access h .load rfl

theorem Inv.store (inv : Inv value s) (h : s.held t k = some g) (f : Option T → T) :
    Inv value (s.store k f g) := inv.access h (.store f) rfl

theorem Inv.drop (inv : Inv value s) (h : s.held t k = some g) : Inv value (s.drop k g) := by
  obtain ⟨hg, hlive⟩ := held_eq_some h
  obtain ⟨-, past, -, hpast, hvalue, hset⟩ := inv.of_live hg hlive
  have hguards : (s.drop k g).guards = past ++ [{ g with dropped := true }] := hset _
  refine .free rfl ?_ ?_
  · rw [hguards]
    exact List.forall_mem_append.mpr ⟨hpast, List.forall_mem_singleton.mpr rfl⟩
  · rw [hguards]
    exact Inv.criticalSection (g := { g with dropped := true }) hvalue

theorem Inv.step (inv : Inv value s) {action : Action T} (h : s.step t action = some s') :
    Inv value s' := by
  cases action with
  | lock =>
    simp only [Spinlock.step, Option.ite_none_left_eq_some, Option.some.injEq] at h
    rw [← h.2]
    exact inv.of_spinning _
  | spin spurious =>
    simp only [Spinlock.step, Option.ite_none_right_eq_some, Option.some.injEq] at h
    rw [← h.2]
    exact inv.spin t spurious
  | tryLock =>
    simp only [Spinlock.step, Option.ite_none_left_eq_some, Option.some.injEq] at h
    rw [← h.2]
    exact inv.tryLock t
  | load k =>
    obtain ⟨g, hg, rfl⟩ := Option.map_eq_some_iff.mp h
    exact inv.load hg
  | store k f =>
    obtain ⟨g, hg, rfl⟩ := Option.map_eq_some_iff.mp h
    exact inv.store hg f
  | drop k =>
    obtain ⟨g, hg, rfl⟩ := Option.map_eq_some_iff.mp h
    exact inv.drop hg

theorem invariant (value : T) : (system value : System (Spinlock ι T)).Invariant (Inv value) where
  init h := h ▸ Inv.new
  step inv h := by
    obtain ⟨t, action, h⟩ := h
    exact inv.step h

/-- Mutual exclusion, and no critical section is lost. -/
structure Exclusive (value : T) (s : Spinlock ι T) : Prop where
  one_guard : ∀ j k, s.Live j → s.Live k → j = k
  tryLock_none : ∀ t, (s.tryLock t).1 = none ↔ ∃ k, s.Live k
  payload : (∀ k, ¬ s.Live k) → s.value = s.completed.foldl Spinlock.criticalSection value

theorem exclusive (value : T) (s : Spinlock ι T) (h : (system value).Reachable s) :
    Exclusive value s where
  one_guard j k hj hk := by
    cases (invariant value).reachable h with
    | free _ hguards _ => exact absurd hj (live_of_free hguards j)
    | held _ hguards hpast hlive _ =>
      rw [(live_iff_of_held hguards hpast hlive).mp hj,
        (live_iff_of_held hguards hpast hlive).mp hk]
  tryLock_none t := ((invariant value).reachable h).tryLock_eq_none t
  payload hnone := by
    cases (invariant value).reachable h with
    | free _ hguards hvalue => rw [hvalue, completed, List.filter_eq_self.mpr hguards]
    | held _ hguards hpast hlive _ =>
      exact absurd ((live_iff_of_held hguards hpast hlive).mpr rfl) (hnone _)

def run (s : Spinlock ι T) (turns : List (ι × Action T)) : Option (Spinlock ι T) :=
  turns.foldlM (fun s turn => s.step turn.1 turn.2) s

theorem reachable_run {turns : List (ι × Action T)} (h : (new value).run turns = some s) :
    (system value).Reachable s := by
  have hinit : (system value).Reachable (new value : Spinlock ι T) := System.Reachable.init rfl
  exact hinit.schedule (fun s turn s' hstep => ⟨turn.1, turn.2, hstep⟩) h

def increment : Option Nat → Nat := fun loaded => loaded.getD 0 + 1

def contended : List (Fin 2 × Action Nat) :=
  [(0, .tryLock), (0, .load 0), (1, .tryLock), (1, .lock), (1, .spin false),
    (0, .store 0 increment), (0, .drop 0), (1, .spin true), (1, .spin false), (1, .load 1),
    (1, .store 1 increment), (1, .drop 1)]

theorem exclusive_contended :
    ∃ s, (new 5).run contended = some s ∧ s.value = 7 ∧ Exclusive 5 s := by
  have hrun : ((new 5).run contended).map (·.value) = some 7 := by decide
  obtain ⟨s, hs, hvalue⟩ := Option.map_eq_some_iff.mp hrun
  exact ⟨s, hs, hvalue, exclusive 5 s (reachable_run hs)⟩

end Spinlock

end FerricK
