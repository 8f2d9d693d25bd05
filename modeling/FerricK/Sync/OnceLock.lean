import FerricK.Lib.Rust
import FerricK.Lib.System
import Mathlib.Data.UInt
import Mathlib.Logic.Function.Basic

/-! The set-once cell, one atomic access at a time.  A call is one call of `set`, `get` or
`wait` by some thread; the order of a thread's own calls only removes interleavings. -/

universe u v

namespace FerricK

inductive MaybeUninit (T : Type v)
  | uninit
  | init (value : T)
  deriving DecidableEq

namespace OnceLock

def empty : UInt8 := 0
def busy : UInt8 := 1
def ready : UInt8 := 2

inductive Op (T : Type v)
  | set (value : T)
  | get
  | wait

inductive Ret (T : Type v)
  | ok
  | err (value : T)
  | none
  | some (found : MaybeUninit T)
  deriving DecidableEq

/-- What a call does next: nothing yet, one of the accesses in the source, or nothing more. -/
inductive Pc (T : Type v)
  | start
  | exchange (value : T)
  | spin (value : T)
  | write (value : T)
  | publish
  | load (waits : Bool)
  | read
  | done (ret : Ret T)
  deriving DecidableEq

end OnceLock

structure OnceLock (ι : Type u) (T : Type v) where
  state : UInt8
  value : MaybeUninit T
  pc : ι → OnceLock.Pc T

namespace OnceLock

open Rust

variable {ι : Type u} {T : Type v}

def new : OnceLock ι T where
  state := empty
  value := .uninit
  pc _ := .start

def enter : Op T → Pc T
  | .set value => .exchange value
  | .get => .load false
  | .wait => .load true

def access (state : UInt8) (cell : MaybeUninit T) (op : Op T) :
    Pc T → UInt8 × MaybeUninit T × Pc T
  | .start => (state, cell, enter op)
  | .exchange value =>
    match compareExchange state empty busy with
    | (.ok _, state') => (state', cell, .write value)
    | (.error found, state') =>
      (state', cell, if found = busy then .spin value else .done (.err value))
  | .spin value => (state, cell, if state = busy then .spin value else .exchange value)
  | .write value => (state, .init value, .publish)
  | .publish => (ready, cell, .done .ok)
  | .load waits =>
    (state, cell, if state = ready then .read else if waits then .load waits else .done .none)
  | .read => (state, cell, .done (.some cell))
  | .done ret => (state, cell, .done ret)

section

variable [DecidableEq ι]

def step (op : ι → Op T) (s : OnceLock ι T) (c : ι) : OnceLock ι T :=
  let (state, value, pc) := access s.state s.value (op c) (s.pc c)
  ⟨state, value, Function.update s.pc c pc⟩

def system (op : ι → Op T) : System (OnceLock ι T) where
  init s := s = new
  step s s' := ∃ c, s' = step op s c

end

def Pc.Holds : Pc T → Prop
  | .write _ | .publish => True
  | _ => False

def Pc.Won : Pc T → Prop
  | .write _ | .publish | .done .ok => True
  | _ => False

/-- What the byte and the cell are while a call of `op` is at a point. -/
def Legal (op : Op T) (state : UInt8) (cell : MaybeUninit T) : Pc T → Prop
  | .start => True
  | .exchange value | .spin value => op = .set value
  | .write value => op = .set value ∧ state = busy
  | .publish => state = busy ∧ ∃ value, op = .set value ∧ cell = .init value
  | .load _ => ∀ value, op ≠ .set value
  | .read => state = ready ∧ ∀ value, op ≠ .set value
  | .done .ok => state = ready ∧ ∃ value, op = .set value ∧ cell = .init value
  | .done (.err value) => op = .set value
  | .done .none => ∀ value, op ≠ .set value
  | .done (.some found) => state = ready ∧ found = cell ∧ ∀ value, op ≠ .set value

structure Inv (op : ι → Op T) (s : OnceLock ι T) : Prop where
  legal : ∀ c, Legal (op c) s.state s.value (s.pc c)
  sole : ∀ c d, (s.pc c).Won → (s.pc d).Won → c = d
  taken : s.state ≠ empty → ∃ c, (s.pc c).Won
  free : s.state = empty → ∀ c, ¬ (s.pc c).Won

variable {op : ι → Op T} {s s' : OnceLock ι T} {c d : ι} {pc : Pc T} {value : T}

theorem Inv.new : Inv op (new : OnceLock ι T) where
  legal _ := True.intro
  sole _ _ h := h.elim
  taken h := absurd rfl h
  free _ _ h := h

theorem legal_enter (o : Op T) (state : UInt8) (cell : MaybeUninit T) :
    Legal o state cell (enter o) := by
  cases o <;> simp [enter, Legal]

theorem Pc.Holds.won (h : pc.Holds) : pc.Won := by
  cases pc with
  | write value => exact True.intro
  | publish => exact True.intro
  | _ => exact False.elim h

theorem Pc.Won.cases (h : pc.Won) :
    (∃ value, pc = .write value) ∨ pc = .publish ∨ pc = .done .ok := by
  cases pc with
  | write value => exact .inl ⟨value, rfl⟩
  | publish => exact .inr (.inl rfl)
  | done ret =>
    cases ret with
    | ok => exact .inr (.inr rfl)
    | _ => exact False.elim h
  | _ => exact False.elim h

theorem Inv.others (inv : Inv op s) (hc : (s.pc c).Won) (d : ι) (hd : d ≠ c) :
    ¬ (s.pc d).Won :=
  fun h => hd (inv.sole d c h hc)

theorem Inv.published (inv : Inv op s) (hready : s.state = ready) :
    ∃ d value, op d = .set value ∧ s.pc d = .done .ok ∧ s.value = .init value := by
  obtain ⟨d, hd⟩ := inv.taken (hready ▸ by decide)
  have hlegal := inv.legal d
  obtain ⟨value, hpc⟩ | hpc | hpc := hd.cases
  · rw [hpc] at hlegal
    exact absurd (hready.symm.trans hlegal.2) (by decide)
  · rw [hpc] at hlegal
    exact absurd (hready.symm.trans hlegal.1) (by decide)
  · rw [hpc] at hlegal
    obtain ⟨-, value, hop, hvalue⟩ := hlegal
    exact ⟨d, value, hop, hpc, hvalue⟩

variable [DecidableEq ι]

theorem Inv.step_cases (inv : Inv op s) (c : ι) :
    (∃ pc, step op s c = { s with pc := Function.update s.pc c pc } ∧
      Legal (op c) s.state s.value pc ∧ (pc.Won ↔ (s.pc c).Won)) ∨
    (∃ value, s.state = empty ∧ op c = .set value ∧ step op s c =
      { s with state := busy, pc := Function.update s.pc c (.write value) }) ∨
    (∃ value, s.state = busy ∧ s.pc c = .write value ∧ op c = .set value ∧ step op s c =
      { s with value := .init value, pc := Function.update s.pc c .publish }) ∨
    (∃ value, s.state = busy ∧ s.pc c = .publish ∧ op c = .set value ∧ s.value = .init value ∧
      step op s c = { s with state := ready, pc := Function.update s.pc c (.done .ok) }) := by
  have hlegal := inv.legal c
  cases hpc : s.pc c with
  | start =>
    refine .inl ⟨enter (op c), by simp [step, access, hpc], legal_enter _ _ _, ?_⟩
    cases op c <;> simp [enter, Pc.Won]
  | exchange value =>
    rw [hpc] at hlegal
    by_cases hstate : s.state = empty
    · exact .inr (.inl ⟨value, hstate, hlegal, by
        simp [step, access, hpc, compareExchange, hstate]⟩)
    · refine .inl ⟨if s.state = busy then .spin value else .done (.err value), ?_, ?_, ?_⟩
      · simp [step, access, hpc, compareExchange, hstate]
      · split <;> exact hlegal
      · split <;> simp [Pc.Won]
  | spin value =>
    rw [hpc] at hlegal
    refine .inl ⟨if s.state = busy then .spin value else .exchange value, ?_, ?_, ?_⟩
    · simp [step, access, hpc]
    · split <;> exact hlegal
    · split <;> simp [Pc.Won]
  | write value =>
    rw [hpc] at hlegal
    exact .inr (.inr (.inl ⟨value, hlegal.2, rfl, hlegal.1, by simp [step, access, hpc]⟩))
  | publish =>
    rw [hpc] at hlegal
    obtain ⟨hbusy, value, hop, hvalue⟩ := hlegal
    exact .inr (.inr (.inr ⟨value, hbusy, rfl, hop, hvalue, by simp [step, access, hpc]⟩))
  | load waits =>
    rw [hpc] at hlegal
    refine .inl ⟨if s.state = ready then .read else if waits then .load waits else .done .none,
      by simp [step, access, hpc], ?_, ?_⟩
    · split
      · exact ⟨‹_›, hlegal⟩
      · split <;> exact hlegal
    · split
      · simp [Pc.Won]
      · split <;> simp [Pc.Won]
  | read =>
    rw [hpc] at hlegal
    exact .inl ⟨.done (.some s.value), by simp [step, access, hpc], ⟨hlegal.1, rfl, hlegal.2⟩,
      by simp [Pc.Won]⟩
  | done ret =>
    exact .inl ⟨.done ret, by simp [step, access, hpc], hpc ▸ hlegal, Iff.rfl⟩

theorem Legal.of_not_won {o : Op T} {state state' : UInt8} {cell cell' : MaybeUninit T}
    (h : Legal o state cell pc) (hnot : ¬ pc.Won) (hne : state ≠ ready) :
    Legal o state' cell' pc := by
  cases pc with
  | write value => exact absurd True.intro hnot
  | publish => exact absurd True.intro hnot
  | read => exact absurd h.1 hne
  | done ret =>
    cases ret with
    | ok => exact absurd True.intro hnot
    | some found => exact absurd h.1 hne
    | err value => exact h
    | none => exact h
  | _ => exact h

theorem Inv.of_winner (inv : Inv op s) {state : UInt8} {cell : MaybeUninit T}
    (hothers : ∀ d, d ≠ c → ¬ (s.pc d).Won) (hne : s.state ≠ ready) (hwon : pc.Won)
    (hstate : state ≠ empty) (hlegal : Legal (op c) state cell pc) :
    Inv op { state := state, value := cell, pc := Function.update s.pc c pc } where
  legal := Function.forall_update_iff s.pc (fun d p => Legal (op d) state cell p) |>.mpr
    ⟨hlegal, fun d hd => (inv.legal d).of_not_won (hothers d hd) hne⟩
  sole := by
    have hwinner : ∀ d, (Function.update s.pc c pc d).Won → d = c := by
      apply (Function.forall_update_iff s.pc (fun d p => p.Won → d = c)).mpr
      exact ⟨fun _ => rfl, fun d hd h => absurd h (hothers d hd)⟩
    intro d e hd he
    rw [hwinner d hd, hwinner e he]
  taken _ := ⟨c, by simpa using hwon⟩
  free h := absurd h hstate

theorem Inv.of_same (inv : Inv op s) (hlegal : Legal (op c) s.state s.value pc)
    (hwon : pc.Won ↔ (s.pc c).Won) : Inv op { s with pc := Function.update s.pc c pc } := by
  have hsame : ∀ d, (Function.update s.pc c pc d).Won ↔ (s.pc d).Won := by
    apply (Function.forall_update_iff s.pc (fun d p => p.Won ↔ (s.pc d).Won)).mpr
    exact ⟨hwon, fun _ _ => Iff.rfl⟩
  constructor
  · apply (Function.forall_update_iff s.pc (fun d p => Legal (op d) s.state s.value p)).mpr
    exact ⟨hlegal, fun d _ => inv.legal d⟩
  · intro d e hd he
    exact inv.sole d e ((hsame d).mp hd) ((hsame e).mp he)
  · intro hstate
    obtain ⟨d, hd⟩ := inv.taken hstate
    exact ⟨d, (hsame d).mpr hd⟩
  · intro hstate d hd
    exact inv.free hstate d ((hsame d).mp hd)

theorem Inv.step (inv : Inv op s) (c : ι) : Inv op (step op s c) := by
  obtain ⟨pc, hstep, hlegal, hwon⟩ | ⟨value, hempty, hop, hstep⟩ |
    ⟨value, hbusy, hpc, hop, hstep⟩ | ⟨value, hbusy, hpc, hop, hvalue, hstep⟩ := inv.step_cases c
  · rw [hstep]
    exact inv.of_same hlegal hwon
  · rw [hstep]
    exact inv.of_winner (fun d _ => inv.free hempty d) (hempty ▸ by decide) True.intro (by decide)
      ⟨hop, rfl⟩
  · rw [hstep]
    exact inv.of_winner (inv.others (hpc ▸ True.intro)) (hbusy ▸ by decide) True.intro
      (hbusy ▸ by decide) ⟨hbusy, value, hop, rfl⟩
  · rw [hstep]
    exact inv.of_winner (inv.others (hpc ▸ True.intro)) (hbusy ▸ by decide) True.intro (by decide)
      ⟨rfl, value, hop, hvalue⟩

theorem invariant (op : ι → Op T) : (system op).Invariant (Inv op) where
  init h := h ▸ Inv.new
  step inv h := by
    obtain ⟨c, rfl⟩ := h
    exact inv.step c

theorem Inv.ready_step (inv : Inv op s) (hready : s.state = ready) (c : ι) :
    (OnceLock.step op s c).state = ready ∧ (OnceLock.step op s c).value = s.value := by
  obtain ⟨pc, hstep, -⟩ | ⟨value, hstate, -⟩ | ⟨value, hstate, -⟩ | ⟨value, hstate, -⟩ :=
    inv.step_cases c
  · exact ⟨by rw [hstep]; exact hready, by rw [hstep]⟩
  all_goals exact absurd (hready.symm.trans hstate) (by decide)

theorem Inv.write_cell (inv : Inv op s) (h : (OnceLock.step op s c).value ≠ s.value) :
    ∃ value, s.pc c = .write value ∧ s.state = busy := by
  obtain ⟨pc, hstep, -⟩ | ⟨value, -, -, hstep⟩ | ⟨value, hbusy, hpc, -⟩ |
    ⟨value, -, -, -, -, hstep⟩ := inv.step_cases c
  · exact absurd (by rw [hstep]) h
  · exact absurd (by rw [hstep]) h
  · exact ⟨value, hpc, hbusy⟩
  · exact absurd (by rw [hstep]) h

def Finds (found : MaybeUninit T) (c : ι) (s : OnceLock ι T) : Prop :=
  s.state = ready ∧ s.value = found ∧
    (s.pc c = .start ∨ (∃ waits, s.pc c = .load waits) ∨ s.pc c = .read ∨
      s.pc c = .done (.some found))

theorem Finds.step {found : MaybeUninit T} (inv : Inv op s) (hreader : ∀ value, op c ≠ .set value)
    (h : Finds found c s) (d : ι) : Finds found c (OnceLock.step op s d) := by
  obtain ⟨hready, hvalue, hpc⟩ := h
  obtain ⟨hready', hvalue'⟩ := inv.ready_step hready d
  refine ⟨hready', hvalue'.trans hvalue, ?_⟩
  by_cases hcd : c = d
  · subst hcd
    obtain hpc | ⟨waits, hpc⟩ | hpc | hpc := hpc
    · cases hop : op c with
      | set value => exact absurd hop (hreader value)
      | get => simp [OnceLock.step, access, hpc, enter, hop]
      | wait => simp [OnceLock.step, access, hpc, enter, hop]
    · simp [OnceLock.step, access, hpc, hready]
    · simp [OnceLock.step, access, hpc, hvalue]
    · simp [OnceLock.step, access, hpc]
  · simpa [OnceLock.step, Function.update_of_ne hcd] using hpc

/-- What the callers of one cell see. -/
structure SetOnce (op : ι → Op T) (s : OnceLock ι T) : Prop where
  one_ok : ∀ c d, s.pc c = .done .ok → s.pc d = .done .ok → c = d
  ok_or_err : ∀ c value ret, op c = .set value → s.pc c = .done ret → ret = .ok ∨ ret = .err value
  found_ok : ∀ c found, s.pc c = .done (.some found) →
    ∃ d value, op d = .set value ∧ s.pc d = .done .ok ∧ found = .init value
  /-- `d`, called once `c` has returned a value, returns that value. -/
  found_later : ∀ c d found ret s', s.pc c = .done (.some found) → s.pc d = .start →
    (∀ value, op d ≠ .set value) → (system op).Steps s s' → s'.pc d = .done ret → ret = .some found
  /-- A step that changes the cell is its writer's, and the only call that holds `busy`. -/
  written_busy : ∀ c, (step op s c).value ≠ s.value →
    (∃ value, s.pc c = .write value) ∧ s.state = busy ∧ ∀ d, (s.pc d).Holds → d = c

theorem set_once (op : ι → Op T) (s : OnceLock ι T) (h : (system op).Reachable s) :
    SetOnce op s where
  one_ok c d hc hd := by
    have inv := (invariant op).reachable h
    exact inv.sole c d (hc ▸ True.intro) (hd ▸ True.intro)
  ok_or_err c value ret hop hc := by
    have hlegal := ((invariant op).reachable h).legal c
    rw [hc, hop] at hlegal
    cases ret with
    | ok => exact .inl rfl
    | err found =>
      cases hlegal
      exact .inr rfl
    | none => exact absurd rfl (hlegal value)
    | some found => exact absurd rfl (hlegal.2.2 value)
  found_ok c found hc := by
    have inv := (invariant op).reachable h
    have hlegal := inv.legal c
    rw [hc] at hlegal
    obtain ⟨hready, rfl, -⟩ := hlegal
    exact inv.published hready
  found_later c d found ret s' hc hd hreader hsteps hret := by
    have inv := (invariant op).reachable h
    have hlegal := inv.legal c
    rw [hc] at hlegal
    have hstart : Finds found d s := ⟨hlegal.1, hlegal.2.1.symm, .inl hd⟩
    have hstable := (invariant op).stable (P := Finds found d) ?_ inv hstart hsteps
    · obtain ⟨-, -, -, hpc⟩ := hstable
      simpa [hret] using hpc
    · rintro s₁ s₂ inv₁ hfinds ⟨e, rfl⟩
      exact hfinds.step inv₁ hreader e
  written_busy c hchange := by
    have inv := (invariant op).reachable h
    obtain ⟨value, hpc, hbusy⟩ := inv.write_cell hchange
    refine ⟨⟨value, hpc⟩, hbusy, fun d hd => inv.sole d c ?_ (hpc ▸ True.intro)⟩
    exact hd.won

theorem reachable_schedule (op : ι → Op T) (calls : List ι) :
    (system op).Reachable (calls.foldl (OnceLock.step op) new) := by
  have hinit : (system op).Reachable new := System.Reachable.init rfl
  apply hinit.schedule (f := fun s c => some (OnceLock.step op s c)) (l := calls)
  · intro s c s' h
    exact ⟨c, (Option.some.inj h).symm⟩
  · exact List.foldlM_pure

def twoSetters : Fin 3 → Op Nat
  | 0 => .set 7
  | 1 => .set 8
  | 2 => .wait

def contended : OnceLock (Fin 3) Nat :=
  [0, 0, 1, 1, 1, 2, 2, 0, 1, 0, 1, 1, 2, 2].foldl (step twoSetters) new

theorem set_once_contended :
    (contended.pc 0 = .done .ok ∧ contended.pc 1 = .done (.err 8) ∧
      contended.pc 2 = .done (.some (.init 7))) ∧ SetOnce twoSetters contended :=
  ⟨by decide, set_once twoSetters contended (reachable_schedule twoSetters _)⟩

end OnceLock

end FerricK
