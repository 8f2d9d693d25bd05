import FerricK.Keyboard.Model
import Mathlib.Data.List.Induction
import Mathlib.Tactic.Common

namespace FerricK.Clock

inductive Dir
  | up
  | down
  | left
  | right
  deriving DecidableEq

def dirOf : Key → Option Dir
  | .up => some .up
  | .down => some .down
  | .left => some .left
  | .right => some .right
  | _ => none

structure Keys where
  held : Option Dir
  lastMoveNs : Nat
  deriving DecidableEq

namespace Keys

def start : Keys where
  held := none
  lastMoveNs := 0

def handle (keys : Keys) : KeyEvent → Option Keys
  | .press .escape => none
  | .press key =>
    match dirOf key with
    | some dir => some { held := some dir, lastMoveNs := 0 }
    | none => some keys
  | .release key => if (dirOf key).isSome then some { keys with held := none } else some keys

def process (events : List KeyEvent) : Option Keys := events.foldlM handle start

end Keys

def IsDown (events : List KeyEvent) (key : Key) : Prop :=
  events.reverse.find? (fun event => event.key = key) = some (.press key)

instance (events : List KeyEvent) (key : Key) : Decidable (IsDown events key) :=
  inferInstanceAs (Decidable (_ = _))

structure Follows (events : List KeyEvent) (held : Option Dir) : Prop where
  down : ∀ dir, held = some dir → ∃ key, dirOf key = some dir ∧ IsDown events key
  idle : held = none → ∀ key, (dirOf key).isSome → ¬ IsDown events key

def OneAtATime (events : List KeyEvent) : Prop :=
  ∀ pre key, pre ++ [.release key] <+: events → (dirOf key).isSome →
    ∀ other, (dirOf other).isSome → other ≠ key → ¬ IsDown pre other

variable {events : List KeyEvent} {event : KeyEvent} {key other : Key} {keys : Keys} {dir : Dir}
  {held : Option Dir}

theorem not_isDown_nil : ¬ IsDown [] key := nofun

theorem isDown_concat : IsDown (events ++ [event]) key ↔
    if event.key = key then event = .press key else IsDown events key := by
  rw [IsDown, List.reverse_append, List.reverse_singleton, List.singleton_append, List.find?_cons]
  by_cases h : event.key = key
  · rw [if_pos h]
    simp [h]
  · rw [if_neg h]
    simp [h, IsDown]

theorem isDown_other (h : event.key ≠ key) :
    IsDown (events ++ [event]) key ↔ IsDown events key := by rw [isDown_concat, if_neg h]

theorem isDown_press : IsDown (events ++ [.press key]) key := by
  rw [isDown_concat]
  exact (if_pos rfl).mpr rfl

theorem not_isDown_release : ¬ IsDown (events ++ [.release key]) key := by
  rw [isDown_concat]
  exact fun h => nomatch (if_pos rfl).mp h

namespace Follows

theorem start : Follows [] none := ⟨nofun, fun _ _ _ => not_isDown_nil⟩

theorem press (h : dirOf key = some dir) : Follows (events ++ [.press key]) (some dir) := by
  refine ⟨?_, nofun⟩
  rintro _ ⟨⟩
  exact ⟨key, h, isDown_press⟩

theorem concat (h : Follows events held) (hevent : dirOf event.key = none) :
    Follows (events ++ [event]) held where
  down := by
    intro dir hheld
    obtain ⟨key, hkey, hdown⟩ := h.down dir hheld
    refine ⟨key, hkey, (isDown_other ?_).mpr hdown⟩
    rintro rfl
    exact nomatch hevent.symm.trans hkey
  idle := by
    intro hheld key hkey
    rw [isDown_other]
    · exact h.idle hheld key hkey
    · rintro rfl
      simp [hevent] at hkey

theorem release_iff : Follows (events ++ [.release key]) none ↔
    ∀ other, (dirOf other).isSome → other ≠ key → ¬ IsDown events other := by
  constructor
  · intro h other hother hne
    have hstill : IsDown (events ++ [.release key]) other ↔ IsDown events other :=
      isDown_other (Ne.symm hne)
    exact fun hdown => h.idle rfl other hother (hstill.mpr hdown)
  · intro h
    refine ⟨nofun, fun _ other hother => ?_⟩
    by_cases hkey : other = key
    · rw [hkey]
      exact not_isDown_release
    · rw [isDown_other (Ne.symm hkey)]
      exact h other hother hkey

end Follows

theorem process_concat : Keys.process (events ++ [event]) =
    (Keys.process events).bind (Keys.handle · event) := by
  rw [Keys.process, List.foldlM_append, ← Keys.process]
  cases Keys.process events with
  | none => rfl
  | some keys => simp

theorem handle_press (keys : Keys) (h : key ≠ .escape) : keys.handle (.press key) =
    some ((dirOf key).elim keys fun dir => { held := some dir, lastMoveNs := 0 }) := by
  cases key with
  | escape => exact absurd rfl h
  | _ => rfl

theorem handle_follows (h : Follows events keys.held) (hescape : event ≠ .press .escape) :
    ∃ keys', keys.handle event = some keys' ∧ (Follows (events ++ [event]) keys'.held ↔
      ∀ key, event = .release key → (dirOf key).isSome →
        ∀ other, (dirOf other).isSome → other ≠ key → ¬ IsDown events other) := by
  cases event with
  | press key =>
    have hkey : key ≠ .escape := fun heq => hescape (congrArg _ heq)
    refine ⟨_, handle_press keys hkey, iff_of_true ?_ (by simp)⟩
    cases hdir : dirOf key with
    | some dir => exact .press hdir
    | none => exact h.concat hdir
  | release key =>
    cases hkey : dirOf key with
    | some dir =>
      refine ⟨{ keys with held := none }, by simp [Keys.handle, hkey], ?_⟩
      rw [Follows.release_iff]
      simp [hkey]
    | none =>
      refine ⟨keys, by simp [Keys.handle, hkey], iff_of_true (h.concat hkey) ?_⟩
      rintro _ ⟨⟩ hsome
      simp [hkey] at hsome

theorem oneAtATime_concat : OneAtATime (events ++ [event]) ↔ OneAtATime events ∧
    ∀ key, event = .release key → (dirOf key).isSome →
      ∀ other, (dirOf other).isSome → other ≠ key → ¬ IsDown events other := by
  constructor
  · intro h
    refine ⟨fun pre key hpre => h pre key (hpre.trans (List.prefix_append _ _)), ?_⟩
    rintro key rfl
    exact h events key (List.prefix_refl _)
  · rintro ⟨hevents, hevent⟩ pre key hpre
    obtain heq | hpre := List.prefix_concat_iff.mp hpre
    · obtain ⟨rfl, hrelease⟩ := List.append_inj' heq rfl
      exact hevent key (List.singleton_inj.mp hrelease).symm
    · exact hevents pre key hpre

theorem hold_to_move_iff (events : List KeyEvent) (hescape : .press .escape ∉ events) :
    (∀ pre, pre <+: events → ∃ keys, Keys.process pre = some keys ∧ Follows pre keys.held) ↔
      OneAtATime events := by
  induction events using List.reverseRecOn with
  | nil =>
    refine iff_of_true (fun pre hpre => ?_) fun pre key hpre => ?_
    · obtain rfl := List.prefix_nil.mp hpre
      exact ⟨.start, rfl, .start⟩
    · exact absurd (List.prefix_nil.mp hpre) (by simp)
  | append_singleton events event ih =>
    rw [List.mem_append, not_or, List.mem_singleton] at hescape
    rw [oneAtATime_concat, ← ih hescape.1]
    constructor
    · intro hall
      have hevents : ∀ pre, pre <+: events → _ := fun pre hpre =>
        hall pre (hpre.trans (List.prefix_append _ _))
      obtain ⟨keys, hprocess, hfollows⟩ := hevents events (List.prefix_refl _)
      obtain ⟨keys', hhandle, hiff⟩ := handle_follows hfollows (Ne.symm hescape.2)
      obtain ⟨keys'', hprocess', hfollows'⟩ := hall (events ++ [event]) (List.prefix_refl _)
      rw [process_concat, hprocess, Option.bind_some, hhandle] at hprocess'
      cases hprocess'
      exact ⟨hevents, hiff.mp hfollows'⟩
    · rintro ⟨hevents, hevent⟩ pre hpre
      obtain rfl | hpre := List.prefix_concat_iff.mp hpre
      · obtain ⟨keys, hprocess, hfollows⟩ := hevents events (List.prefix_refl _)
        obtain ⟨keys', hhandle, hiff⟩ := handle_follows hfollows (Ne.symm hescape.2)
        refine ⟨keys', ?_, hiff.mpr hevent⟩
        rw [process_concat, hprocess, Option.bind_some, hhandle]
      · exact hevents pre hpre

theorem hold_to_move_iff_turn :
    ∃ keys, Keys.process [.press .up, .release .up, .press .left] = some keys ∧
      Follows [.press .up, .release .up, .press .left] keys.held := by
  have hup : OneAtATime ([] ++ [.press .up]) :=
    oneAtATime_concat.mpr ⟨fun _ _ h => absurd (List.prefix_nil.mp h) (by simp), nofun⟩
  have hrelease : OneAtATime ([] ++ [.press .up] ++ [.release .up]) := by
    refine oneAtATime_concat.mpr ⟨hup, ?_⟩
    rintro _ ⟨⟩ - other - hne
    rw [isDown_other (Ne.symm hne)]
    exact not_isDown_nil
  have hleft : OneAtATime ([] ++ [.press .up] ++ [.release .up] ++ [.press .left]) :=
    oneAtATime_concat.mpr ⟨hrelease, nofun⟩
  exact (hold_to_move_iff [.press .up, .release .up, .press .left] (by decide)).mpr hleft _
    (List.prefix_refl _)

theorem hold_to_move_stops : ¬ ∀ events : List KeyEvent, .press .escape ∉ events →
    ∃ keys, Keys.process events = some keys ∧ Follows events keys.held := by
  intro hall
  obtain ⟨keys, hprocess, hfollows⟩ :=
    hall [.press .up, .press .down, .release .up] (by decide)
  cases hprocess
  exact hfollows.idle rfl .down rfl (by decide)

end FerricK.Clock
