import FerricK.Heap.Runs

namespace FerricK.Heap

open Rust

/-- What clients do. `dealloc k` gives back the allocation before the `k` newest. -/
inductive Action
  | alloc (layout : Layout)
  | dealloc (k : Nat)
  | store (x : Nat) (v : UInt8)

structure Clients where
  heap : State
  live : List Live

namespace Clients

def alloc (c : Clients) (layout : Layout) : Rust (Nat × Clients) := do
  let (p, heap) ← Heap.alloc c.heap layout
  return (p, ⟨heap, if p = 0 then c.live else ⟨p, layout, blockBounds heap p⟩ :: c.live⟩)

def dealloc (c : Clients) (k : Nat) : Rust Clients :=
  match c.live[k]? with
  | none => return c
  | some a => return ⟨← Heap.dealloc c.heap a.payload, c.live.eraseIdx k⟩

/-- A store outside every payload is nobody's to make. -/
def store (c : Clients) (x : Nat) (v : UInt8) : Clients :=
  if ∃ a ∈ c.live, a.payload ≤ x ∧ x < a.payload + a.size then
    { c with heap := { c.heap with mem := Function.update c.heap.mem x v } }
  else c

def answers (c : Clients) : List Action → Rust (List Nat)
  | [] => return []
  | .alloc layout :: script => do
    let (p, c) ← c.alloc layout
    return p :: (← c.answers script)
  | .dealloc k :: script => do (← c.dealloc k).answers script
  | .store x v :: script => (c.store x v).answers script

end Clients

instance NoWrap.decidable (size align : Nat) : (fl : List Block) → Decidable (NoWrap size align fl)
  | [] => inferInstanceAs (Decidable True)
  | _ :: fl =>
    haveI := NoWrap.decidable size align fl
    inferInstanceAs (Decidable (_ ∧ (_ ∨ _)))

structure Pool where
  free : List Block
  live : List Block

namespace Pool

/-- First fit; `none` where an address would not fit a `usize`. -/
def alloc (q : Pool) (layout : Layout) : Option (Nat × Pool) :=
  let size := max layout.size 1
  if NoWrap size layout.align q.free then
    match firstFit size layout.align q.free with
    | none => some (0, q)
    | some (b, fl) =>
      let p := b.payload layout.align
      some (p, ⟨fl, b.front (p + size) :: q.live⟩)
  else none

def dealloc (q : Pool) (k : Nat) : Pool :=
  match q.live[k]? with
  | none => q
  | some B => ⟨release q.free B, q.live.eraseIdx k⟩

def answers (q : Pool) : List Action → Option (List Nat)
  | [] => some []
  | .alloc layout :: script => do
    let (p, q) ← q.alloc layout
    return p :: (← q.answers script)
  | .dealloc k :: script => (q.dealloc k).answers script
  | .store _ _ :: script => q.answers script

end Pool

structure Refines (c : Clients) (q : Pool) : Prop where
  invariant : Invariant c.heap c.live q.free
  live : q.live = c.live.map Live.block

variable {s s₀ t t₀ : State} {start size : Nat} {c : Clients} {q : Pool} {layout : Layout}
  {k x : Nat} {v : UInt8} {script : List Action}

namespace Refines

theorem alloc (h : Refines c q) (layout : Layout) :
    (∃ e, c.alloc layout = .error e ∧ q.alloc layout = none) ∨
      ∃ p c' q', c.alloc layout = .ok (p, c') ∧ q.alloc layout = some (p, q') ∧ Refines c' q' := by
  by_cases hwrap : NoWrap (max layout.size 1) layout.align q.free
  · refine Or.inr ?_
    rcases h.invariant.alloc layout hwrap with ⟨hfit, halloc⟩ |
      ⟨b, fl, p, s', hfit, rfl, halloc, hp, hbounds, hinv, -⟩
    · refine ⟨0, c, q, by simp [Clients.alloc, halloc], ?_, h⟩
      simp [Pool.alloc, hwrap, hfit]
    · let p := b.payload layout.align
      refine ⟨p, ⟨s', ⟨p, layout, blockBounds s' p⟩ :: c.live⟩,
        ⟨fl, b.front (p + max layout.size 1) :: q.live⟩, by simp [Clients.alloc, halloc, hp, p],
        by simp [Pool.alloc, hwrap, hfit, p], hinv, ?_⟩
      rw [List.map_cons, hbounds, h.live]
  · refine Or.inl ⟨.overflow, ?_, by simp [Pool.alloc, hwrap]⟩
    simp [Clients.alloc, alloc_overflow h.invariant.core layout hwrap]

theorem dealloc (h : Refines c q) (k : Nat) :
    ∃ c', c.dealloc k = .ok c' ∧ Refines c' (q.dealloc k) := by
  have hlive : q.live[k]? = c.live[k]?.map Live.block := by rw [h.live, List.getElem?_map]
  rcases hk : c.live[k]? with _ | a
  · rw [hk, Option.map_none] at hlive
    exact ⟨c, by simp [Clients.dealloc, hk], by simpa [Pool.dealloc, hlive] using h⟩
  · rw [hk, Option.map_some] at hlive
    have hlt := (List.getElem?_eq_some_iff.mp hk).1
    have hperm : c.live.Perm (a :: c.live.eraseIdx k) := by
      rw [← (List.getElem?_eq_some_iff.mp hk).2]
      exact (List.getElem_cons_eraseIdx_perm hlt).symm
    obtain ⟨s', hdealloc, hinv, -⟩ := (h.invariant.perm hperm).dealloc
    refine ⟨⟨s', c.live.eraseIdx k⟩, by simp [Clients.dealloc, hk, hdealloc], ?_⟩
    simp only [Pool.dealloc, hlive]
    exact ⟨hinv, by rw [h.live, List.eraseIdx_map]⟩

theorem store (h : Refines c q) (x : Nat) (v : UInt8) : Refines (c.store x v) q := by
  rw [Clients.store]
  split
  · next hmem =>
    obtain ⟨a, ha, hlow, hhigh⟩ := hmem
    exact ⟨h.invariant.write ha hlow hhigh v, h.live⟩
  · exact h

theorem answers (h : Refines c q) (script : List Action) :
    (c.answers script).toOption = q.answers script := by
  induction script generalizing c q with
  | nil => rfl
  | cons action script ih =>
    cases action with
    | alloc layout =>
      rcases h.alloc layout with ⟨e, hc, hq⟩ | ⟨p, c', q', hc, hq, h'⟩
      · simp only [Clients.answers, Pool.answers, hc, hq]
        rfl
      · simp only [Clients.answers, Pool.answers, hc, hq, ok_bind, Option.bind_eq_bind,
          Option.bind_some, ← ih h']
        cases c'.answers script <;> rfl
    | dealloc k =>
      obtain ⟨c', hc, h'⟩ := h.dealloc k
      rw [Clients.answers, Pool.answers, hc, ok_bind]
      exact ih h'
    | store x v => exact ih (h.store x v)

theorem of_init (h : Heap.init s₀ start size = .ok (true, s)) :
    Refines ⟨s, []⟩ ⟨[⟨s.start, s.end - s.start⟩], []⟩ := ⟨init_spec h, rfl⟩

end Refines

/-- Whatever clients do with a heap, `alloc` returns what first fit on the list of its blocks
does, and a run that stops stops where an address of first fit would not fit a `usize`. -/
theorem answers_first_fit (h : Heap.init s₀ start size = .ok (true, s)) (script : List Action) :
    (Clients.answers ⟨s, []⟩ script).toOption =
      Pool.answers ⟨[⟨s.start, s.end - s.start⟩], []⟩ script :=
  (Refines.of_init h).answers script

def Action.isCall : Action → Bool
  | .store _ _ => false
  | _ => true

theorem Pool.answers_calls (q : Pool) (script : List Action) :
    q.answers (script.filter Action.isCall) = q.answers script := by
  induction script generalizing q with
  | nil => rfl
  | cons action script ih =>
    cases action with
    | alloc layout =>
      simp only [List.filter_cons, Action.isCall, ↓reduceIte, Pool.answers]
      exact congrArg _ (funext fun r => by rw [ih])
    | dealloc k => exact ih (q.dealloc k)
    | store x v => exact ih q

theorem init_bounds (h : Heap.init s₀ start size = .ok (true, s)) :
    s.start = Align.up start 8 ∧ s.end = Align.up start 8 + size / 8 * 8 := by
  obtain ⟨-, -, -, rfl⟩ := init_cases h
  exact ⟨rfl, rfl⟩

/-- The addresses a heap hands out depend on the calls alone: not on what is stored in the
allocations, nor on what the memory held before. -/
theorem answers_of_calls (hs : Heap.init s₀ start size = .ok (true, s))
    (ht : Heap.init t₀ start size = .ok (true, t)) (script script' : List Action)
    (hcalls : script.filter Action.isCall = script'.filter Action.isCall) :
    (Clients.answers ⟨s, []⟩ script).toOption = (Clients.answers ⟨t, []⟩ script').toOption := by
  obtain ⟨hstart, hend⟩ := init_bounds hs
  obtain ⟨hstart', hend'⟩ := init_bounds ht
  rw [(Refines.of_init hs).answers, (Refines.of_init ht).answers, hstart, hend, hstart', hend',
    ← Pool.answers_calls, ← Pool.answers_calls _ script', hcalls]

def reuse : List Action :=
  [.alloc ⟨24, 64, ⟨6, rfl⟩, by decide⟩, .alloc ⟨100, 8, ⟨3, rfl⟩, by decide⟩, .store 4272 7,
    .dealloc 0, .alloc ⟨8, 4096, ⟨12, rfl⟩, by decide⟩, .alloc ⟨50, 1, ⟨0, rfl⟩, by decide⟩]

theorem init_page (m : Mem) : ∃ s, Heap.init ⟨m, 0, 0, 0⟩ 4096 4096 = .ok (true, s) ∧
    s.start = 4096 ∧ s.end = 8192 := ⟨_, rfl, rfl, rfl⟩

theorem answers_first_fit_reuse : ∃ s, Heap.init ⟨fun _ => 0, 0, 0, 0⟩ 4096 4096 = .ok (true, s) ∧
    (Clients.answers ⟨s, []⟩ reuse).toOption = some [4160, 4216, 0, 4216] := by
  obtain ⟨s, hinit, hstart, hend⟩ := init_page fun _ => 0
  refine ⟨s, hinit, (answers_first_fit hinit reuse).trans ?_⟩
  rw [hstart, hend]
  decide

theorem answers_of_calls_reuse : ∃ s t, s.mem 0 ≠ t.mem 0 ∧
    (Clients.answers ⟨s, []⟩ reuse).toOption =
      (Clients.answers ⟨t, []⟩ (reuse.filter Action.isCall)).toOption := by
  have hs : Heap.init ⟨fun _ => 0, 0, 0, 0⟩ 4096 4096 = .ok (true, _) := rfl
  have ht : Heap.init ⟨fun _ => 1, 0, 0, 0⟩ 4096 4096 = .ok (true, _) := rfl
  exact ⟨_, _, by decide, answers_of_calls hs ht reuse (reuse.filter Action.isCall) (by simp)⟩

end FerricK.Heap
