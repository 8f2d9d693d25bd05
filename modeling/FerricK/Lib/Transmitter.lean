import Mathlib.Data.List.Basic
import Mathlib.Logic.Relation

universe u v

/-- What a transmitter shows of its queue, and which statuses a sender takes for leave to store. -/
structure Transmitter (α : Type u) (σ : Type v) where
  room : List α → Prop
  shows : List α → σ → Prop
  ready : σ → Bool
  room_of_ready : ∀ {queue status}, shows queue status → ready status = true → room queue
  room_of_cons : ∀ {x queue}, room (x :: queue) → room queue
  exists_ready : ∃ status, shows [] status ∧ ready status = true

structure Wire (α : Type u) where
  queue : List α
  sent : List α

def Wire.accepted {α : Type u} (w : Wire α) : List α := w.sent ++ w.queue

/-- `polled` while the last status it read was one to store on. -/
structure Sender (α : Type u) where
  pending : List α
  polled : Bool

namespace Transmitter

variable {α : Type u} {σ : Type v}

/-- A turn of a sender. An item stored where there is no room for it is lost. -/
inductive Send (T : Transmitter α σ) : Sender α → Wire α → Sender α → Wire α → Prop
  | poll {x : α} {pending : List α} {w : Wire α} {status : σ} : T.shows w.queue status →
      Send T ⟨x :: pending, false⟩ w ⟨x :: pending, T.ready status⟩ w
  | store {x : α} {pending : List α} {w : Wire α} : T.room w.queue →
      Send T ⟨x :: pending, true⟩ w ⟨pending, false⟩ { w with queue := w.queue ++ [x] }
  | overrun {x : α} {pending : List α} {w : Wire α} : ¬ T.room w.queue →
      Send T ⟨x :: pending, true⟩ w ⟨pending, false⟩ w

inductive Shift : Wire α → Wire α → Prop
  | shift {x : α} {queue sent : List α} : Shift ⟨x :: queue, sent⟩ ⟨queue, sent ++ [x]⟩

def Ready (T : Transmitter α σ) (s : Sender α) (w : Wire α) : Prop :=
  s.polled = true → T.room w.queue

variable {T : Transmitter α σ} {s s' : Sender α} {w w' : Wire α}

theorem Send.ready (h : T.Send s w s' w') : T.Ready s' w' := by
  cases h with
  | poll hshows => exact T.room_of_ready hshows
  | store | overrun => exact fun h => nomatch h

theorem Shift.ready (h : Shift w w') (hready : T.Ready s w) : T.Ready s w' := by
  cases h with
  | shift => exact fun hpolled => T.room_of_cons (hready hpolled)

theorem Send.accepted (h : T.Send s w s' w') (hready : T.Ready s w) :
    w'.accepted ++ s'.pending = w.accepted ++ s.pending := by
  cases h with
  | poll => rfl
  | store => simp [Wire.accepted]
  | overrun hfull => exact absurd (hready rfl) hfull

theorem Send.pending (h : T.Send s w s' w') : s'.pending <:+ s.pending := by
  cases h with
  | poll => exact List.suffix_rfl
  | store | overrun => exact List.suffix_cons _ _

theorem Shift.accepted (h : Shift w w') : w'.accepted = w.accepted := by
  cases h with
  | shift => simp [Wire.accepted]

inductive Move (T : Transmitter α σ) : Sender α × Wire α → Sender α × Wire α → Prop
  | send {s s' : Sender α} {w w' : Wire α} : T.Send s w s' w' → Move T (s, w) (s', w')
  | shift {s : Sender α} {w w' : Wire α} : Shift w w' → Move T (s, w) (s, w')

def Moves (T : Transmitter α σ) : Sender α × Wire α → Sender α × Wire α → Prop :=
  Relation.ReflTransGen T.Move

theorem exists_drained (w : Wire α) : Relation.ReflTransGen Shift w ⟨[], w.accepted⟩ := by
  obtain ⟨queue, sent⟩ := w
  induction queue generalizing sent with
  | nil => rw [Wire.accepted, List.append_nil]
  | cons x queue ih =>
    have hshift : Shift ⟨x :: queue, sent⟩ ⟨queue, sent ++ [x]⟩ := .shift
    have hdrained := ih (sent ++ [x])
    rw [hshift.accepted] at hdrained
    exact Relation.ReflTransGen.head hshift hdrained

theorem moves_drained (T : Transmitter α σ) (s : Sender α) (w : Wire α) :
    T.Moves (s, w) (s, ⟨[], w.accepted⟩) :=
  Relation.ReflTransGen.lift (s, ·) (fun _ _ h => Move.shift h) _ _ (exists_drained w)

theorem exists_polled {x : α} {pending : List α} {polled : Bool}
    (hready : T.Ready ⟨x :: pending, polled⟩ w) :
    ∃ w', T.room w'.queue ∧ w'.accepted = w.accepted ∧
      T.Moves (⟨x :: pending, polled⟩, w) (⟨x :: pending, true⟩, w') := by
  cases polled with
  | true => exact ⟨w, hready rfl, rfl, Relation.ReflTransGen.refl⟩
  | false =>
    obtain ⟨status, hshows, hstatus⟩ := T.exists_ready
    have hpoll : T.Send ⟨x :: pending, false⟩ ⟨[], w.accepted⟩ ⟨x :: pending, T.ready status⟩ _ :=
      .poll hshows
    rw [hstatus] at hpoll
    exact ⟨_, T.room_of_ready hshows hstatus, List.append_nil _,
      (T.moves_drained _ w).tail (.send hpoll)⟩

theorem exists_finished (hready : T.Ready s w) :
    ∃ s', s'.pending = [] ∧ T.Moves (s, w) (s', ⟨[], w.accepted ++ s.pending⟩) := by
  obtain ⟨pending, polled⟩ := s
  induction pending generalizing polled w with
  | nil =>
    rw [List.append_nil]
    exact ⟨_, rfl, T.moves_drained _ w⟩
  | cons x pending ih =>
    obtain ⟨w₁, hroom, haccepted, hpolled⟩ := exists_polled hready
    have hstore : T.Send ⟨x :: pending, true⟩ w₁ ⟨pending, false⟩ _ := .store hroom
    obtain ⟨s', hdone, hmoves⟩ := ih false hstore.ready
    refine ⟨s', hdone, hpolled.trans (.head (.send hstore) ?_)⟩
    rw [← haccepted, ← hstore.accepted fun _ => hroom]
    exact hmoves

end Transmitter
