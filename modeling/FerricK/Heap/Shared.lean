import FerricK.Heap.Guarantees
import FerricK.Sync.Holder

/-! `Spinlock<Heap>` as the global allocator: threads take the lock for each request, and use what
they own, or hand it on, while others wait for the heap or hold it. -/

universe u

namespace FerricK.Heap

open Rust Tiling
open System (Turns)

theorem Undisturbed.refl (s : State) (a : Live) : Undisturbed s s a := ⟨fun _ _ _ => rfl, rfl, rfl⟩

theorem Undisturbed.trans {s s' s'' : State} {a : Live} (h : Undisturbed s s' a)
    (h' : Undisturbed s' s'' a) : Undisturbed s s'' a where
  payload x hlow hhigh := (h'.payload x hlow hhigh).trans (h.payload x hlow hhigh)
  size := h'.size.trans h.size
  slot := h'.slot.trans h.slot

theorem Invariant.write_undisturbed {s : State} {live : List Live} {fl : List Block} {a b : Live}
    {x : Nat} (h : Invariant s live fl) (ha : a ∈ live) (hb : b ∈ live) (hne : a ≠ b)
    (hlow : a.payload ≤ x) (hhigh : x < a.payload + a.size) (v : UInt8) :
    Undisturbed s { s with mem := Function.update s.mem x v } b where
  payload y hy hy' := by
    have hapart := h.isolated.payloads.forall ha hb hne
    simp only [Apart, Live.span] at hapart
    exact Function.update_of_ne (by omega) _ _
  size := by
    have hapart := h.isolated.headers a ha b.block (mem_held hb)
    have hoff := Field.offset_lt .size
    simp only [Apart, Live.span, headerSize] at hapart hoff
    refine Bytes.loadWord_congr fun y hy => Function.update_of_ne ?_ _ _
    rw [Bytes.mem_span_nat] at hy
    omega
  slot := by
    have hapart := h.isolated.slots a ha b hb
    have hroom := (h.hosts b hb).low
    simp only [Apart, Live.span, headerGap, headerSize] at hapart hroom
    refine Bytes.loadWord_congr fun y hy => Function.update_of_ne ?_ _ _
    rw [Bytes.mem_span_nat] at hy
    simp only [headerGap] at hy
    omega

inductive Request
  | alloc (layout : Layout)
  | dealloc (a : Live)

structure Shared (ι : Type u) where
  lock : Spinlock ι Unit
  heap : State
  request : ι → Option Request
  panicked : ι → Bool
  owned : List (ι × Live)

namespace Shared

variable {ι : Type u}

def live (s : Shared ι) : List Live := s.owned.map Prod.snd

structure Idle (s : Shared ι) (t : ι) : Prop where
  request : s.request t = none
  panicked : s.panicked t = false
  spinning : s.lock.spinning t = false
  heldBy : ¬ s.lock.HeldBy t

/-- What `GlobalAlloc` asks of its caller: only an allocation of one's own is given back. -/
def Allowed (s : Shared ι) (t : ι) : Request → Prop
  | .alloc _ => True
  | .dealloc a => (t, a) ∈ s.owned

def Overlong (s : Shared ι) : Request → Prop
  | .alloc layout => 2 ^ 64 ≤ s.heap.end + layout.align
  | .dealloc _ => False

section

variable [DecidableEq ι]

/-- What `t` can do. `self.lock().alloc(layout)` takes the lock, calls and drops the guard; an
overflow in the call panics, and a panic does not unwind, so that guard is never dropped. -/
inductive Step (s : Shared ι) (t : ι) : Shared ι → Prop
  | call {r : Request} {lock : Spinlock ι Unit} : s.Idle t → s.Allowed t r →
      s.lock.step t .lock = some lock →
      Step s t { s with lock := lock, request := Function.update s.request t (some r) }
  | spin {spurious : Bool} {lock : Spinlock ι Unit} : s.lock.step t (.spin spurious) = some lock →
      Step s t { s with lock := lock }
  | alloc {layout : Layout} {p : Nat} {heap : State} : s.request t = some (.alloc layout) →
      s.lock.HeldBy t → Heap.alloc s.heap layout = .ok (p, heap) → p ≠ 0 →
      Step s t { s with
        heap := heap
        request := Function.update s.request t none
        owned := (t, ⟨p, layout, blockBounds heap p⟩) :: s.owned }
  | exhausted {layout : Layout} {heap : State} : s.request t = some (.alloc layout) →
      s.lock.HeldBy t → Heap.alloc s.heap layout = .ok (0, heap) →
      Step s t { s with heap := heap, request := Function.update s.request t none }
  | panic {layout : Layout} {e : Stop} : s.request t = some (.alloc layout) →
      s.lock.HeldBy t → Heap.alloc s.heap layout = .error e →
      Step s t { s with
        request := Function.update s.request t none
        panicked := Function.update s.panicked t true }
  | dealloc {a : Live} {heap : State} {l r : List (ι × Live)} :
      s.request t = some (.dealloc a) → s.lock.HeldBy t →
      Heap.dealloc s.heap a.payload = .ok heap → s.owned = l ++ (t, a) :: r →
      Step s t { s with
        heap := heap
        request := Function.update s.request t none
        owned := l ++ r }
  | drop {k : Nat} {lock : Spinlock ι Unit} : s.request t = none → s.panicked t = false →
      s.lock.step t (.drop k) = some lock → Step s t { s with lock := lock }
  | write {a : Live} {x : Nat} (v : UInt8) : s.Idle t → (t, a) ∈ s.owned → a.payload ≤ x →
      x < a.payload + a.size →
      Step s t { s with heap := { s.heap with mem := Function.update s.heap.mem x v } }
  | send {a : Live} {l r : List (ι × Live)} (u : ι) : s.Idle t → s.owned = l ++ (t, a) :: r →
      Step s t { s with owned := l ++ (u, a) :: r }

def system : System (Shared ι) where
  init s := s.lock = Spinlock.new () ∧ s.request = (fun _ => none) ∧
    s.panicked = (fun _ => false) ∧ s.owned = [] ∧
      ∃ s₀ start size, Heap.init s₀ start size = .ok (true, s.heap)
  step s s' := ∃ t, Step s t s'

end

/-- Where a thread stands: in its own code, in a call before, in or after its critical section,
or stopped in it. -/
inductive Phase (s : Shared ι) (t : ι) : Prop
  | idle (h : s.Idle t)
  | waiting {r : Request} (hr : s.request t = some r) (hpanic : s.panicked t = false)
      (hallowed : s.Allowed t r) (hspin : s.lock.spinning t = true) (hheld : ¬ s.lock.HeldBy t)
  | inside {r : Request} (hr : s.request t = some r) (hpanic : s.panicked t = false)
      (hallowed : s.Allowed t r) (hspin : s.lock.spinning t = false) (hheld : s.lock.HeldBy t)
  | leaving (hr : s.request t = none) (hpanic : s.panicked t = false)
      (hspin : s.lock.spinning t = false) (hheld : s.lock.HeldBy t)
  | stopped (hr : s.request t = none) (hpanic : s.panicked t = true)
      (hspin : s.lock.spinning t = false) (hheld : s.lock.HeldBy t)

structure Inv (s : Shared ι) : Prop where
  lock : Spinlock.Inv () s.lock
  heap : ∃ fl, Heap.Invariant s.heap s.live fl
  phase : ∀ t, s.Phase t

structure Kept (s s' : Shared ι) (u : ι) : Prop where
  request : s'.request u = s.request u
  panicked : s'.panicked u = s.panicked u
  spinning : s'.lock.spinning u = s.lock.spinning u
  heldBy : s'.lock.HeldBy u ↔ s.lock.HeldBy u
  «end» : s'.heap.end = s.heap.end
  owned : ∀ a, (u, a) ∈ s.owned → (u, a) ∈ s'.owned ∧ Undisturbed s.heap s'.heap a

variable {s s' s'' : Shared ι} {t u : ι} {a b : Live} {r : Request} {fl : List Block}

theorem mem_live (h : (t, a) ∈ s.owned) : a ∈ s.live := List.mem_map_of_mem (f := Prod.snd) h

theorem Allowed.kept (h : s.Allowed u r) (hkept : Kept s s' u) : s'.Allowed u r := by
  cases r with
  | alloc layout => trivial
  | dealloc a => exact (hkept.owned a h).1

theorem Phase.kept (h : s.Phase u) (hkept : Kept s s' u) : s'.Phase u := by
  cases h with
  | idle h =>
    exact .idle ⟨hkept.request.trans h.request, hkept.panicked.trans h.panicked,
      hkept.spinning.trans h.spinning, fun hheld => h.heldBy (hkept.heldBy.mp hheld)⟩
  | waiting hr hpanic hallowed hspin hheld =>
    exact .waiting (hkept.request.trans hr) (hkept.panicked.trans hpanic) (hallowed.kept hkept)
      (hkept.spinning.trans hspin) fun h => hheld (hkept.heldBy.mp h)
  | inside hr hpanic hallowed hspin hheld =>
    exact .inside (hkept.request.trans hr) (hkept.panicked.trans hpanic) (hallowed.kept hkept)
      (hkept.spinning.trans hspin) (hkept.heldBy.mpr hheld)
  | leaving hr hpanic hspin hheld =>
    exact .leaving (hkept.request.trans hr) (hkept.panicked.trans hpanic)
      (hkept.spinning.trans hspin) (hkept.heldBy.mpr hheld)
  | stopped hr hpanic hspin hheld =>
    exact .stopped (hkept.request.trans hr) (hkept.panicked.trans hpanic)
      (hkept.spinning.trans hspin) (hkept.heldBy.mpr hheld)

theorem Kept.trans (h : Kept s s' u) (h' : Kept s' s'' u) : Kept s s'' u where
  request := h'.request.trans h.request
  panicked := h'.panicked.trans h.panicked
  spinning := h'.spinning.trans h.spinning
  heldBy := h'.heldBy.trans h.heldBy
  «end» := h'.end.trans h.end
  owned a ha :=
    ⟨(h'.owned a (h.owned a ha).1).1, (h.owned a ha).2.trans (h'.owned a (h.owned a ha).1).2⟩

theorem mem_sides {l r : List (ι × Live)} (h : (u, b) ∈ l ++ (t, a) :: r) (hu : u ≠ t) :
    (u, b) ∈ l ++ r := by
  simp only [List.mem_append, List.mem_cons, Prod.mk.injEq] at h ⊢
  tauto

theorem Inv.owner (inv : Inv s) (ht : (t, a) ∈ s.owned) (hu : (u, a) ∈ s.owned) : t = u := by
  obtain ⟨fl, hinv⟩ := inv.heap
  have hnodup : s.live.Nodup := List.Nodup.of_map _ (List.nodup_append.mp hinv.core.nodup).2.1
  have heq := List.inj_on_of_nodup_map hnodup ht hu rfl
  exact congrArg Prod.fst heq

theorem Step.kept [DecidableEq ι] (h : Step s t s') (inv : Inv s) (hu : u ≠ t) : Kept s s' u := by
  obtain ⟨fl, hinv⟩ := inv.heap
  cases h with
  | call hidle hallowed hlock =>
    obtain ⟨-, rfl⟩ := Spinlock.step_lock hlock
    exact ⟨Function.update_of_ne hu _ _, rfl, Function.update_of_ne hu _ _, Iff.rfl, rfl,
      fun a ha => ⟨ha, Undisturbed.refl _ _⟩⟩
  | spin hlock =>
    obtain ⟨-, rfl | ⟨-, rfl⟩⟩ := Spinlock.step_spin hlock
    · exact ⟨rfl, rfl, rfl, Iff.rfl, rfl, fun a ha => ⟨ha, Undisturbed.refl _ _⟩⟩
    · exact ⟨rfl, rfl, Function.update_of_ne hu _ _,
        Spinlock.heldBy_handOut.trans (or_iff_left hu), rfl,
        fun a ha => ⟨ha, Undisturbed.refl _ _⟩⟩
  | alloc hr hheld halloc hp =>
    have hunt := (hinv.alloc_cases halloc).1
    exact ⟨Function.update_of_ne hu _ _, rfl, rfl, Iff.rfl, hunt.end, fun a ha =>
      ⟨List.mem_cons_of_mem _ ha, hinv.undisturbed (mem_live ha)
        (hunt.mono (by simpa using List.mem_map_of_mem (f := Live.block) (mem_live ha)))⟩⟩
  | exhausted hr hheld halloc =>
    have hunt := (hinv.alloc_cases halloc).1
    exact ⟨Function.update_of_ne hu _ _, rfl, rfl, Iff.rfl, hunt.end, fun a ha =>
      ⟨ha, hinv.undisturbed (mem_live ha)
        (hunt.mono (by simpa using List.mem_map_of_mem (f := Live.block) (mem_live ha)))⟩⟩
  | panic =>
    exact ⟨Function.update_of_ne hu _ _, Function.update_of_ne hu _ _, rfl, Iff.rfl, rfl,
      fun a ha => ⟨ha, Undisturbed.refl _ _⟩⟩
  | @dealloc a heap l r hr hheld hdealloc howned =>
    have hlive : s.live = l.map Prod.snd ++ a :: r.map Prod.snd := by simp [live, howned]
    have hunt := ((hlive ▸ hinv).dealloc_cases hdealloc).2
    refine ⟨Function.update_of_ne hu _ _, rfl, rfl, Iff.rfl, hunt.end, fun b hb => ?_⟩
    have hmem : (u, b) ∈ l ++ r := by
      rw [howned] at hb
      exact mem_sides hb hu
    have hblock : b.block ∈ (l.map Prod.snd ++ r.map Prod.snd).map Live.block := by
      rw [← List.map_append]
      exact List.mem_map_of_mem (List.mem_map_of_mem (f := Prod.snd) hmem)
    exact ⟨hmem, hinv.undisturbed (mem_live hb) (hunt.mono (by simpa using hblock))⟩
  | drop hr hpanic hlock =>
    obtain ⟨g, hk, howner, hlive, -⟩ := Spinlock.step_drop hlock
    obtain ⟨hnone, hspin, -⟩ := inv.lock.not_heldBy_drop (u := u) hlock
    have hu' : ¬ s.lock.HeldBy u := fun hheld =>
      hu (inv.lock.heldBy_unique hheld ⟨g, List.mem_of_getElem? hk, howner, hlive⟩)
    exact ⟨rfl, rfl, congrFun hspin u, iff_of_false hnone hu', rfl,
      fun a ha => ⟨ha, Undisturbed.refl _ _⟩⟩
  | @write a x v hidle ha hlow hhigh =>
    refine ⟨rfl, rfl, rfl, Iff.rfl, rfl, fun b hb => ⟨hb, ?_⟩⟩
    have hne : a ≠ b := by
      rintro rfl
      exact hu (inv.owner hb ha)
    exact hinv.write_undisturbed (mem_live ha) (mem_live hb) hne hlow hhigh v
  | send v hidle howned =>
    refine ⟨rfl, rfl, rfl, Iff.rfl, rfl, fun b hb => ⟨?_, Undisturbed.refl _ _⟩⟩
    rw [howned] at hb
    exact ((List.sublist_cons_self _ _).append_left _).subset (mem_sides hb hu)

theorem Phase.not_spinning (h : s.Phase t) (hheld : s.lock.HeldBy t) :
    s.lock.spinning t = false := by
  cases h with
  | idle h => exact h.spinning
  | waiting _ _ _ _ hnot => exact absurd hheld hnot
  | inside _ _ _ hspin _ => exact hspin
  | leaving _ _ hspin _ => exact hspin
  | stopped _ _ hspin _ => exact hspin

theorem Phase.of_spinning (h : s.Phase t) (hspin : s.lock.spinning t = true) :
    ∃ r, s.request t = some r ∧ s.panicked t = false ∧ s.Allowed t r := by
  cases h with
  | idle h => exact absurd hspin (by simp [h.spinning])
  | waiting hr hpanic hallowed => exact ⟨_, hr, hpanic, hallowed⟩
  | inside _ _ _ hnot _ => exact absurd hspin (by simp [hnot])
  | leaving _ _ hnot _ => exact absurd hspin (by simp [hnot])
  | stopped _ _ hnot _ => exact absurd hspin (by simp [hnot])

theorem Phase.of_request (h : s.Phase t) (hr : s.request t = some r) :
    s.panicked t = false ∧ s.Allowed t r := by
  cases h with
  | idle h => exact absurd (hr.symm.trans h.request) (by simp)
  | waiting hr' hpanic hallowed =>
    obtain rfl := Option.some.inj (hr.symm.trans hr')
    exact ⟨hpanic, hallowed⟩
  | inside hr' hpanic hallowed =>
    obtain rfl := Option.some.inj (hr.symm.trans hr')
    exact ⟨hpanic, hallowed⟩
  | leaving hnone => exact absurd (hr.symm.trans hnone) (by simp)
  | stopped hnone => exact absurd (hr.symm.trans hnone) (by simp)

theorem Phase.of_panicked (h : s.Phase t) (hpanic : s.panicked t = true) :
    s.request t = none ∧ s.lock.HeldBy t := by
  cases h with
  | idle h => exact absurd hpanic (by simp [h.panicked])
  | waiting _ hnot => exact absurd hpanic (by simp [hnot])
  | inside _ hnot => exact absurd hpanic (by simp [hnot])
  | leaving _ hnot => exact absurd hpanic (by simp [hnot])
  | stopped hr _ _ hheld => exact ⟨hr, hheld⟩

variable [DecidableEq ι]

theorem Step.lock (h : Step s t s') (inv : Inv s) : Spinlock.Inv () s'.lock := by
  cases h with
  | call _ _ hlock => exact inv.lock.step hlock
  | spin hlock => exact inv.lock.step hlock
  | drop _ _ hlock => exact inv.lock.step hlock
  | alloc | exhausted | panic | dealloc | write | send => exact inv.lock

theorem Step.heap (h : Step s t s') (inv : Inv s) : ∃ fl, Heap.Invariant s'.heap s'.live fl := by
  obtain ⟨fl, hinv⟩ := inv.heap
  cases h with
  | call | spin | panic | drop => exact ⟨fl, hinv⟩
  | alloc _ _ halloc hp =>
    obtain ⟨-, ⟨hnull, -⟩ | ⟨-, -, fl', -, -, -, hinv'⟩⟩ := hinv.alloc_cases halloc
    · exact absurd hnull hp
    · exact ⟨fl', hinv'⟩
  | exhausted _ _ halloc =>
    obtain ⟨-, ⟨-, rfl, -⟩ | ⟨hp, -⟩⟩ := hinv.alloc_cases halloc
    · exact ⟨fl, hinv⟩
    · exact absurd rfl hp
  | @dealloc a _ l r _ _ hdealloc howned =>
    have hlive : s.live = l.map Prod.snd ++ a :: r.map Prod.snd := by simp [live, howned]
    refine ⟨release fl a.block, ?_⟩
    rw [live, List.map_append]
    exact ((hlive ▸ hinv).dealloc_cases hdealloc).1
  | write v _ ha hlow hhigh => exact ⟨fl, hinv.write (mem_live ha) hlow hhigh v⟩
  | @send a l r u _ howned =>
    have hlive : s.live = (l ++ (u, a) :: r).map Prod.snd := by simp [live, howned]
    refine ⟨fl, ?_⟩
    rw [live, ← hlive]
    exact hinv

theorem Step.phase (h : Step s t s') (inv : Inv s) : s'.Phase t := by
  have hphase := inv.phase t
  cases h with
  | call hidle hallowed hlock =>
    obtain ⟨-, rfl⟩ := Spinlock.step_lock hlock
    refine .waiting (Function.update_self _ _ _) hidle.panicked ?_ (Function.update_self _ _ _)
      hidle.heldBy
    cases ‹Request› <;> exact hallowed
  | spin hlock =>
    obtain ⟨hspin, rfl | ⟨-, rfl⟩⟩ := Spinlock.step_spin hlock
    · exact hphase
    · obtain ⟨r, hr, hpanic, hallowed⟩ := hphase.of_spinning hspin
      refine .inside hr hpanic ?_ (Function.update_self _ _ _)
        (Spinlock.heldBy_handOut.mpr (Or.inr rfl))
      cases r <;> exact hallowed
  | alloc hr hheld =>
    exact .leaving (Function.update_self _ _ _) (hphase.of_request hr).1
      (hphase.not_spinning hheld) hheld
  | exhausted hr hheld =>
    exact .leaving (Function.update_self _ _ _) (hphase.of_request hr).1
      (hphase.not_spinning hheld) hheld
  | panic hr hheld =>
    exact .stopped (Function.update_self _ _ _) (Function.update_self _ _ _)
      (hphase.not_spinning hheld) hheld
  | dealloc hr hheld =>
    exact .leaving (Function.update_self _ _ _) (hphase.of_request hr).1
      (hphase.not_spinning hheld) hheld
  | drop hr hpanic hlock =>
    obtain ⟨g, hk, howner, hlive, -⟩ := Spinlock.step_drop hlock
    obtain ⟨hnone, hspin, -⟩ := inv.lock.not_heldBy_drop (u := t) hlock
    have hheld : s.lock.HeldBy t := ⟨g, List.mem_of_getElem? hk, howner, hlive⟩
    exact .idle ⟨hr, hpanic, (congrFun hspin t).trans (hphase.not_spinning hheld), hnone⟩
  | write _ hidle => exact .idle ⟨hidle.request, hidle.panicked, hidle.spinning, hidle.heldBy⟩
  | send _ hidle => exact .idle ⟨hidle.request, hidle.panicked, hidle.spinning, hidle.heldBy⟩

theorem Step.inv (h : Step s t s') (inv : Inv s) : Inv s' where
  lock := h.lock inv
  heap := h.heap inv
  phase u := by
    rcases eq_or_ne u t with rfl | hu
    · exact h.phase inv
    · exact (inv.phase u).kept (h.kept inv hu)

theorem invariant : (system : System (Shared ι)).Invariant Inv where
  init h := by
    obtain ⟨hlock, hrequest, hpanicked, howned, s₀, start, size, hinit⟩ := h
    have hheap := init_spec hinit
    rw [← List.map_nil (f := Prod.snd), ← howned] at hheap
    refine ⟨hlock ▸ Spinlock.Inv.new, ⟨_, hheap⟩, fun t => .idle ⟨?_, ?_, ?_, ?_⟩⟩
    · rw [hrequest]
    · rw [hpanicked]
    · rw [hlock]
      rfl
    · rw [hlock]
      exact Spinlock.not_heldBy_new () t
  step inv h := by
    obtain ⟨t, h⟩ := h
    exact h.inv inv

/-- One thread at a time is in the heap, and what threads own lies apart and has one owner. -/
structure Safe (s : Shared ι) : Prop where
  exclusive : ∀ t u, s.lock.HeldBy t → s.lock.HeldBy u → t = u
  one_owner : ∀ t u a, (t, a) ∈ s.owned → (u, a) ∈ s.owned → t = u
  owed : ∀ t a, s.request t = some (.dealloc a) → (t, a) ∈ s.owned
  intact : ∃ fl, Isolated s.heap s.live fl ∧ Tiled s.heap s.live fl ∧ Coalesced fl

theorem Inv.not_step (inv : Inv s) (hpanic : s.panicked t = true) : ¬ Step s t s' := by
  obtain ⟨hr, hheld⟩ := (inv.phase t).of_panicked hpanic
  intro h
  cases h with
  | call hidle | write _ hidle | send _ hidle => exact hidle.heldBy hheld
  | spin hlock =>
    exact absurd (Spinlock.step_spin hlock).1 (by simp [(inv.phase t).not_spinning hheld])
  | alloc hsome | exhausted hsome | panic hsome | dealloc hsome =>
    exact absurd (hsome.symm.trans hr) (by simp)
  | drop _ hnot => exact absurd hpanic (by simp [hnot])

theorem panicked_steps (inv : Inv s) (hpanic : s.panicked t = true)
    (hsteps : system.Steps s s') : s'.panicked t = true ∧ s'.lock.HeldBy t := by
  have hstep : ∀ {s s' : Shared ι}, s.Inv → s.panicked t = true → system.step s s' →
      s'.panicked t = true := by
    intro s s' inv hpanic hstep
    obtain ⟨u, hstep⟩ := hstep
    have hne : t ≠ u := by
      rintro rfl
      exact inv.not_step hpanic hstep
    exact (hstep.kept inv hne).panicked.trans hpanic
  have hstable := invariant.stable hstep inv hpanic hsteps
  exact ⟨hstable.2, ((hstable.1.phase t).of_panicked hstable.2).2⟩

/-- A call in its critical section comes back, or panics with a request that is overlong. -/
theorem Inv.returns (inv : Inv s) (hr : s.request t = some r) (hheld : s.lock.HeldBy t) :
    ∃ s', Step s t s' ∧ (s'.request t = none ∧ s'.panicked t = false ∧ s'.lock = s.lock ∨
      s'.panicked t = true ∧ s.Overlong r) := by
  obtain ⟨fl, hinv⟩ := inv.heap
  obtain ⟨hpanic, hallowed⟩ := (inv.phase t).of_request hr
  cases r with
  | alloc layout =>
    rcases halloc : Heap.alloc s.heap layout with e | ⟨p, heap⟩
    · refine ⟨_, .panic hr hheld halloc, .inr ⟨Function.update_self _ _ _, ?_⟩⟩
      by_contra hshort
      rcases hinv.alloc layout (hinv.core.noWrap (Nat.lt_of_not_le hshort) _) with ⟨-, hnone⟩ |
        ⟨-, -, p, heap, -, -, hsome, -⟩
      · exact absurd (hnone.symm.trans halloc) nofun
      · exact absurd (hsome.symm.trans halloc) nofun
    · rcases eq_or_ne p 0 with rfl | hp
      · exact ⟨_, .exhausted hr hheld halloc, .inl ⟨Function.update_self _ _ _, hpanic, rfl⟩⟩
      · exact ⟨_, .alloc hr hheld halloc hp, .inl ⟨Function.update_self _ _ _, hpanic, rfl⟩⟩
  | dealloc a =>
    obtain ⟨l, r, howned⟩ := List.mem_iff_append.mp hallowed
    have hlive : s.live = l.map Prod.snd ++ a :: r.map Prod.snd := by simp [live, howned]
    obtain ⟨heap, hdealloc, -⟩ := ((hlive ▸ hinv).perm List.perm_middle).dealloc
    exact ⟨_, .dealloc hr hheld hdealloc howned, .inl ⟨Function.update_self _ _ _, hpanic, rfl⟩⟩

theorem inv_turns {who : ι → Prop} (h : Turns Step who s s') (inv : Inv s) : Inv s' :=
  invariant.steps inv (h.steps fun hstep => ⟨_, hstep⟩)

theorem kept_turns {who : ι → Prop} (h : Turns Step who s s') (inv : Inv s) (hu : ¬ who u) :
    Kept s s' u := by
  induction h with
  | refl => exact ⟨rfl, rfl, rfl, Iff.rfl, rfl, fun a ha => ⟨ha, Undisturbed.refl _ _⟩⟩
  | tail hturns hstep ih =>
    obtain ⟨t, ht, hstep⟩ := hstep
    have hne : u ≠ t := by
      rintro rfl
      exact hu ht
    exact ih.trans (hstep.kept (inv_turns hturns inv) hne)

theorem Inv.drops (inv : Inv s) (hr : s.request t = none) (hpanic : s.panicked t = false)
    (hheld : s.lock.HeldBy t) :
    ∃ s', Step s t s' ∧ s'.Idle t ∧ s'.lock.locked = false ∧ s'.owned = s.owned := by
  have hspin := (inv.phase t).not_spinning hheld
  obtain ⟨k, lock, hlock⟩ := hheld.drop hspin
  obtain ⟨hnone, hspin', hfree⟩ := inv.lock.not_heldBy_drop (u := t) hlock
  exact ⟨_, .drop hr hpanic hlock, ⟨hr, hpanic, (congrFun hspin' t).trans hspin, hnone⟩, hfree, rfl⟩

def Panics (s s' : Shared ι) (t : ι) : Prop :=
  s'.panicked t = true ∧ (s.panicked t = true ∨ ∃ r, s.request t = some r ∧ s.Overlong r)

theorem Inv.leaves (inv : Inv s) (hheld : s.lock.HeldBy t) :
    ∃ s', Turns Step (· = t) s s' ∧ (s'.Idle t ∧ s'.lock.locked = false ∨ Panics s s' t) := by
  rcases hpanic : s.panicked t with _ | _
  · rcases hr : s.request t with _ | r
    · obtain ⟨s', hstep, hidle, hfree, -⟩ := inv.drops hr hpanic hheld
      exact ⟨s', .single hstep, .inl ⟨hidle, hfree⟩⟩
    · obtain ⟨s₁, hstep₁, ⟨hnone, hpanic₁, hlock⟩ | ⟨hpanic₁, hlong⟩⟩ := inv.returns hr hheld
      · obtain ⟨s', hstep, hidle, hfree, -⟩ := (hstep₁.inv inv).drops hnone hpanic₁ (hlock ▸ hheld)
        exact ⟨s', (Turns.single hstep₁).trans (.single hstep), .inl ⟨hidle, hfree⟩⟩
      · exact ⟨s₁, .single hstep₁, .inr ⟨hpanic₁, .inr ⟨r, hr, hlong⟩⟩⟩
  · exact ⟨s, .refl, .inr ⟨hpanic, .inl hpanic⟩⟩

theorem Inv.takes (inv : Inv s) (hspin : s.lock.spinning t = true)
    (hfree : s.lock.locked = false) :
    ∃ s', Turns Step (· = t) s s' ∧ (s'.Idle t ∨ Panics s s' t) := by
  have hstep : Step s t _ := .spin (Spinlock.spin_of_free hspin hfree)
  obtain ⟨s', hturns, hend⟩ :=
    (hstep.inv inv).leaves (Spinlock.heldBy_handOut.mpr (Or.inr rfl))
  exact ⟨s', (Turns.single hstep).trans hturns, hend.imp And.left id⟩

omit [DecidableEq ι] in
theorem Panics.of_kept (h : Panics s' s'' u) (hkept : Kept s s' u) : Panics s s'' u := by
  obtain ⟨hpanic, hpast | ⟨r, hr, hlong⟩⟩ := h
  · exact ⟨hpanic, .inl (hkept.panicked.symm.trans hpast)⟩
  · refine ⟨hpanic, .inr ⟨r, hkept.request.symm.trans hr, ?_⟩⟩
    cases r with
    | alloc layout =>
      rw [Overlong, hkept.end] at hlong
      exact hlong
    | dealloc a => exact hlong

theorem reachable_step (h : system.Reachable s) (hstep : Step s t s') : system.Reachable s' :=
  h.steps ((System.Steps.refl s).tail ⟨t, hstep⟩)

def vector : Layout := ⟨24, 32, ⟨5, rfl⟩, by omega⟩

theorem exists_page : ∃ s, (∃ s₀ start size, Heap.init s₀ start size = .ok (true, s)) ∧
    s.end = 8192 ∧ ∃ p s', Heap.alloc s vector = .ok (p, s') ∧ p ≠ 0 := by
  have hrun : ∃ s, init ⟨fun _ => 0, 0, 0, 0⟩ 4096 4096 = .ok (true, s) ∧ s.start = 4096 ∧
      s.end = 8192 := ⟨_, rfl, rfl, rfl⟩
  obtain ⟨s, hinit, hstart, hend⟩ := hrun
  have hwrap : s.end + 32 < 2 ^ 64 := by omega
  have hinv := init_spec hinit
  rcases hinv.alloc vector (hinv.core.noWrap hwrap _) with ⟨hnone, -⟩ |
    ⟨-, -, p, s', -, -, halloc, hp, -⟩
  · have hfits : firstFit 24 32 [⟨4096, 4096⟩] ≠ none := by decide
    rw [hstart, hend] at hnone
    exact absurd hnone hfits
  · exact ⟨s, ⟨_, _, _, hinit⟩, hend, p, s', halloc, hp⟩

structure Contended (s : Shared (Fin 2)) : Prop where
  reachable : system.Reachable s
  owned : ∃ a, (0, a) ∈ s.owned
  request : s.request 0 = none
  panicked : ∀ t, s.panicked t = false
  heldBy : s.lock.HeldBy 0
  spinning : s.lock.spinning 1 = true
  asks : s.request 1 = some (.alloc vector)
  «end» : s.heap.end = 8192

theorem exists_contended : ∃ s, Contended s := by
  obtain ⟨heap, hinit, hend, p, heap', halloc, hp⟩ := exists_page
  have h₀ : system.Reachable (⟨Spinlock.new (), heap, fun _ => none, fun _ => false, []⟩ :
    Shared (Fin 2)) :=
    System.Reachable.init ⟨rfl, rfl, rfl, rfl, hinit⟩
  have h₁ := reachable_step h₀
    (.call (t := 0) (r := .alloc vector) ⟨rfl, rfl, rfl, Spinlock.not_heldBy_new () 0⟩ trivial rfl)
  have h₂ := reachable_step h₁
    (.call (t := 1) (r := .alloc vector) ⟨rfl, rfl, rfl, Spinlock.not_heldBy_new () 1⟩ trivial rfl)
  have h₃ := reachable_step h₂ (.spin (t := 0) (Spinlock.spin_of_free rfl rfl))
  have h₄ := reachable_step h₃
    (.alloc (t := 0) rfl ⟨_, List.mem_singleton_self _, rfl, rfl⟩ halloc hp)
  obtain ⟨_, _, _, hinit⟩ := hinit
  exact ⟨_, h₄, ⟨_, List.mem_cons_self⟩, rfl, fun _ => rfl,
    ⟨_, List.mem_singleton_self _, rfl, rfl⟩, rfl, rfl,
    ((init_spec hinit).alloc_cases halloc).1.end.trans hend⟩

theorem Contended.not_overlong {s : Shared (Fin 2)} (h : Contended s) (s' : Shared (Fin 2)) :
    ¬ Panics s s' 1 := by
  rintro ⟨-, hpast | ⟨r, hr, hlong⟩⟩
  · exact absurd hpast (by simp [h.panicked])
  · obtain rfl := Option.some.inj (h.asks.symm.trans hr)
    rw [Overlong, h.end] at hlong
    exact absurd hlong (by decide)

theorem shared_safe (s : Shared ι) (h : system.Reachable s) : Safe s := by
  have inv := invariant.reachable h
  obtain ⟨fl, hinv⟩ := inv.heap
  exact ⟨fun _ _ => inv.lock.heldBy_unique, fun _ _ _ => inv.owner,
    fun t a hr => ((inv.phase t).of_request hr).2, fl, hinv.isolated, hinv.tiled, hinv.coalesced⟩

theorem shared_safe_contended : ∃ s : Shared (Fin 2), s.lock.HeldBy 0 ∧ s.lock.spinning 1 = true ∧
    (∃ a, (0, a) ∈ s.owned) ∧ Safe s := by
  obtain ⟨s, h⟩ := exists_contended
  exact ⟨s, h.heldBy, h.spinning, h.owned, shared_safe s h.reachable⟩

theorem others_keep (h : system.Reachable s) (hturns : Turns Step (· ≠ u) s s') : Kept s s' u :=
  kept_turns hturns (invariant.reachable h) (by simp)

theorem others_keep_contended : ∃ (s s' : Shared (Fin 2)) (a : Live), (0, a) ∈ s.owned ∧
    s.lock.spinning 1 = true ∧ s'.Idle 1 ∧ Kept s s' 0 := by
  obtain ⟨s, h⟩ := exists_contended
  obtain ⟨a, ha⟩ := h.owned
  have inv := invariant.reachable h.reachable
  obtain ⟨s₁, hstep, -, hfree, howned⟩ := inv.drops h.request (h.panicked 0) h.heldBy
  have hkept := hstep.kept inv (u := 1) (by decide)
  have hspin := hkept.spinning.trans h.spinning
  obtain ⟨s', hturns, hidle | hpanic⟩ := (hstep.inv inv).takes hspin hfree
  · exact ⟨s₁, s', a, howned ▸ ha, hspin, hidle,
      others_keep (reachable_step h.reachable hstep) (hturns.mono fun t ht => by simp [ht])⟩
  · exact absurd (hpanic.of_kept hkept) (h.not_overlong s')

/-- Whatever state the threads are in, a call comes to its end with turns of its own and of
whoever holds the lock, unless one of the two panics; and a panic keeps the lock for good. -/
theorem calls_complete (h : system.Reachable s) (t : ι) :
    (∃ s', Turns Step (fun u => u = t ∨ s.lock.HeldBy u) s s' ∧
      (s'.Idle t ∨ ∃ u, (u = t ∨ s.lock.HeldBy u) ∧ Panics s s' u)) ∧
    ∀ u s', s.panicked u = true → system.Steps s s' → s'.lock.HeldBy u := by
  have inv := invariant.reachable h
  refine ⟨?_, fun u s' hpanic hsteps => (panicked_steps inv hpanic hsteps).2⟩
  cases inv.phase t with
  | idle hidle => exact ⟨s, .refl, .inl hidle⟩
  | inside _ _ _ _ hheld | leaving _ _ _ hheld | stopped _ _ _ hheld =>
    obtain ⟨s', hturns, hend⟩ := inv.leaves hheld
    exact ⟨s', hturns.mono fun _ => Or.inl, hend.imp And.left fun hpanic => ⟨t, .inl rfl, hpanic⟩⟩
  | waiting hr hpanic hallowed hspin hheld =>
    rcases hlocked : s.lock.locked with _ | _
    · obtain ⟨s', hturns, hend⟩ := inv.takes hspin hlocked
      exact ⟨s', hturns.mono fun _ => Or.inl, hend.imp_right fun hpanic => ⟨t, .inl rfl, hpanic⟩⟩
    · obtain ⟨u, hu⟩ := inv.lock.heldBy_iff.mpr hlocked
      have hne : ¬ t = u := by
        rintro rfl
        exact hheld hu
      obtain ⟨s₁, hturns₁, ⟨-, hfree⟩ | hpanic⟩ := inv.leaves hu
      · have hkept := kept_turns hturns₁ inv hne
        obtain ⟨s', hturns, hend⟩ :=
          (inv_turns hturns₁ inv).takes (hkept.spinning.trans hspin) hfree
        exact ⟨s', (hturns₁.mono fun v hv => Or.inr (hv ▸ hu)).trans
          (hturns.mono fun _ => Or.inl), hend.imp_right fun hpanic =>
            ⟨t, .inl rfl, hpanic.of_kept hkept⟩⟩
      · exact ⟨s₁, hturns₁.mono fun v hv => Or.inr (hv ▸ hu), .inr ⟨u, .inr hu, hpanic⟩⟩

theorem calls_complete_contended : ∃ s : Shared (Fin 2), s.lock.HeldBy 0 ∧
    s.lock.spinning 1 = true ∧
    (∃ s', Turns Step (fun u => u = 1 ∨ s.lock.HeldBy u) s s' ∧
      (s'.Idle 1 ∨ ∃ u, (u = 1 ∨ s.lock.HeldBy u) ∧ Panics s s' u)) ∧
    ∀ u s', s.panicked u = true → system.Steps s s' → s'.lock.HeldBy u := by
  obtain ⟨s, h⟩ := exists_contended
  exact ⟨s, h.heldBy, h.spinning, calls_complete h.reachable 1⟩

end Shared

end FerricK.Heap
