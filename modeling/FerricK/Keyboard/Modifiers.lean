import FerricK.Keyboard.Screen

namespace FerricK.Screen

/-- What reaches the loop until Escape: a tap on a key of the window, by whatever pointer, a
physical key, or the end of a drain. -/
inductive Event
  | tap (key : ScreenKey)
  | key (event : KeyEvent)
  | frame

def step (s : Screen) : Event → Screen
  | .tap key => s.tap key
  | .key event => s.key event
  | .frame => s.frame

def run (events : List Event) : Screen := events.foldl step start

def ask (m : KeyboardModel) : Event → KeyboardModel
  | .tap .shift => m.toggleShift
  | .tap .caps => m.toggleCaps
  | .key (.press .leftShift) | .key (.press .rightShift) => m.pressShift
  | .key (.release .leftShift) | .key (.release .rightShift) => m.releaseShift
  | .key (.press .capsLock) => m.toggleCaps
  | _ => m

def asked (events : List Event) : KeyboardModel := events.foldl ask .new

/-- At every point the model is what was asked for; a frame shows it and types under it. -/
structure Synced (events : List Event) : Prop where
  model : ∀ before, before <+: events → (run before).state = asked before
  shown : ∀ before, before ++ [.frame] <+: events →
    (run (before ++ [.frame])).shifted = (asked before).shifted ∧
      (run (before ++ [.frame])).capsOn = (asked before).caps
  typed : ∀ before low high, before ++ [.frame] <+: events →
    (run before).pending = .char low high →
    (run (before ++ [.frame])).dispatched =
      ((run before).dispatch (.press (.char ((asked before).encode low high)))).dispatched

def raises : Event → Bool
  | .tap .shift | .tap .caps => true
  | .key (.press .leftShift) | .key (.press .rightShift) | .key (.press .capsLock) => true
  | _ => false

variable {s : Screen} {events before : List Event} {e : Event}

@[simp] theorem state_dispatch (s : Screen) (event : KeyEvent) :
    (s.dispatch event).state = s.state := by
  unfold dispatch
  split <;> rfl

@[simp] theorem state_tap (s : Screen) (key : ScreenKey) : (s.tap key).state = s.state := by
  cases key <;> rfl

@[simp] theorem state_clickSelected (s : Screen) : s.clickSelected.state = s.state := by
  unfold clickSelected
  split
  · exact state_tap s _
  · rfl

@[simp] theorem state_key (s : Screen) (event : KeyEvent) : (s.key event).state = s.state := by
  cases event with
  | press key => cases key <;> simp [key, getThen, move]
  | release key => cases key <;> simp [key, getThen]

@[simp] theorem state_dispatchPendingKey (s : Screen) (tap : PendingKey) :
    (s.dispatchPendingKey tap).state = s.state := by
  cases tap <;> simp [dispatchPendingKey]

@[simp] theorem state_frame (s : Screen) : s.frame.state = s.state :=
  state_dispatchPendingKey _ _

/-- Every call changes a copy, so the cell keeps its first value. -/
theorem state_step (s : Screen) (e : Event) : (step s e).state = s.state := by
  cases e with
  | tap key => exact state_tap s key
  | key event => exact state_key s event
  | frame => exact state_frame s

theorem state_run (events : List Event) : (run events).state = .new := by
  induction events using List.reverseRecOn with
  | nil => rfl
  | append_singleton events e ih => rw [run, List.foldl_concat, state_step, ← run, ih]

theorem ask_new (e : Event) : ask .new e = .new ↔ raises e = false := by
  cases e with
  | tap key => cases key <;> simp [ask, raises, KeyboardModel.new, KeyboardModel.toggleShift,
      KeyboardModel.toggleCaps]
  | key event =>
    cases event with
    | press key => cases key <;> simp [ask, raises, KeyboardModel.new, KeyboardModel.pressShift,
        KeyboardModel.toggleCaps]
    | release key => cases key <;> simp [ask, raises, KeyboardModel.new, KeyboardModel.releaseShift]
  | frame => decide

theorem asked_eq_new (h : ∀ e ∈ events, raises e = false) : asked events = .new := by
  induction events using List.reverseRecOn with
  | nil => rfl
  | append_singleton events e ih =>
    obtain ⟨hevents, he⟩ := List.forall_mem_append.mp h
    rw [asked, List.foldl_concat, ← asked, ih hevents]
    exact (ask_new e).mpr (he e (List.mem_singleton_self e))

theorem Synced.not_raises (h : Synced events) (hbefore : before <+: events) :
    ∀ e ∈ before, raises e = false := by
  induction before using List.reverseRecOn with
  | nil => simp
  | append_singleton before e ih =>
    have hpre : before <+: events := (List.prefix_append before [e]).trans hbefore
    have hmodel := h.model _ hbefore
    rw [state_run, asked, List.foldl_concat, ← asked, asked_eq_new (ih hpre)] at hmodel
    refine List.forall_mem_append.mpr ⟨ih hpre, List.forall_mem_singleton.mpr ?_⟩
    exact (ask_new e).mp hmodel.symm

theorem synced_iff (events : List Event) :
    Synced events ↔ ∀ e ∈ events, raises e = false := by
  refine ⟨fun h => h.not_raises (List.prefix_refl events), fun h => ?_⟩
  have hasked : ∀ before, before <+: events → asked before = .new := by
    intro before hbefore
    exact asked_eq_new fun e he => h e (hbefore.subset he)
  have hframe : ∀ before, before ++ [.frame] <+: events → asked before = .new := by
    intro before hbefore
    exact hasked before ((List.prefix_append before [.frame]).trans hbefore)
  have hlast : ∀ before, run (before ++ [.frame]) = (run before).frame := by
    intro before
    exact List.foldl_concat step start .frame before
  constructor
  · intro before hbefore
    rw [state_run, hasked before hbefore]
  · intro before hbefore
    rw [hlast, hframe before hbefore]
    have hstate : (run before).frame.state = .new := by rw [state_frame, state_run]
    exact ⟨congrArg KeyboardModel.shifted hstate, congrArg KeyboardModel.caps hstate⟩
  · intro before low high hbefore hpending
    have hstate : (run before).state = .new := state_run before
    rw [hlast, hframe before hbefore]
    simp [frame, applyState, hpending, dispatchPendingKey, hstate, dispatched_dispatch]

/-- One tap on SHIFT: the model is still new, and the frame shows no shift. -/
theorem shift_tap_lost : ¬ Synced [.tap .shift, .frame] := by
  intro h
  have hmodel := h.model [.tap .shift] (List.prefix_append _ _)
  exact absurd hmodel (by decide)

end FerricK.Screen
