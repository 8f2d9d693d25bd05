import FerricK.Keyboard.Scancodes
import Mathlib.Data.List.Induction

namespace FerricK

inductive ModKey
  | leftShift
  | rightShift
  | capsLock
  deriving DecidableEq

namespace ModKey

def make : ModKey → UInt8
  | leftShift => 0x2A
  | rightShift => 0x36
  | capsLock => 0x3A

def key : ModKey → Key
  | leftShift => .leftShift
  | rightShift => .rightShift
  | capsLock => .capsLock

def isShift : ModKey → Bool
  | capsLock => false
  | _ => true

def other : ModKey → ModKey
  | leftShift => rightShift
  | rightShift => leftShift
  | capsLock => capsLock

end ModKey

inductive ModEvent
  | press (key : ModKey)
  | release (key : ModKey)
  deriving DecidableEq

namespace ModEvent

def key : ModEvent → ModKey
  | press key => key
  | release key => key

def byte : ModEvent → UInt8
  | press key => key.make
  | release key => key.make ||| 0x80

/-- What `run_keyboard` calls; it does nothing when caps lock is released. -/
def call (m : KeyboardModel) : ModEvent → KeyboardModel
  | press .leftShift | press .rightShift => m.pressShift
  | release .leftShift | release .rightShift => m.releaseShift
  | press .capsLock => m.toggleCaps
  | release .capsLock => m

end ModEvent

namespace ScancodeDecoder

def afterBytes (events : List ModEvent) : ScancodeDecoder :=
  events.foldl (fun d e => (d.push e.byte).2) new

def afterCalls (events : List ModEvent) : KeyboardModel := events.foldl ModEvent.call .new

def lastShift (events : List ModEvent) : Option ModEvent :=
  (events.filter (·.key.isShift)).getLast?

def lastOf (key : ModKey) (events : List ModEvent) : Option ModEvent :=
  (events.filter (·.key = key)).getLast?

def Held (key : ModKey) (events : List ModEvent) : Prop := lastOf key events = some (.press key)

instance (key : ModKey) (events : List ModEvent) : Decidable (Held key events) :=
  inferInstanceAs (Decidable (_ = _))

/-- The last shift event lets go of one key while the other is down. -/
def LetGoOfOne (events : List ModEvent) : Prop :=
  ∃ key, lastShift events = some (.release key) ∧ Held key.other events

variable {events : List ModEvent} {e : ModEvent} {key : ModKey}

theorem push_byte {d : ScancodeDecoder} (hd : d.Idle) (e : ModEvent) :
    (d.push e.byte).2 = match e with
      | .press .leftShift => { d with leftShift := true }
      | .press .rightShift => { d with rightShift := true }
      | .press .capsLock => { d with capsLock := !d.capsLock }
      | .release .leftShift => { d with leftShift := false }
      | .release .rightShift => { d with rightShift := false }
      | .release .capsLock => d := by
  obtain ⟨extended, pause, left, right, caps⟩ := d
  obtain ⟨rfl, rfl⟩ := hd
  cases e with
  | press key => cases key <;> rfl
  | release key => cases key <;> rfl

theorem lastOf_append (key : ModKey) (events : List ModEvent) (e : ModEvent) :
    lastOf key (events ++ [e]) = if e.key = key then some e else lastOf key events := by
  rw [lastOf, List.filter_append, List.filter_singleton]
  by_cases h : e.key = key
  · simp [h]
  · simp [h, lastOf]

theorem lastShift_append (events : List ModEvent) (e : ModEvent) :
    lastShift (events ++ [e]) = if e.key.isShift then some e else lastShift events := by
  rw [lastShift, List.filter_append, List.filter_singleton]
  by_cases h : e.key.isShift
  · simp [h]
  · simp [h, lastShift]

theorem held_append : Held key (events ++ [e]) ↔
    e = .press key ∨ e.key ≠ key ∧ Held key events := by
  rw [Held, lastOf_append]
  by_cases h : e.key = key
  · simp [h]
  · rw [if_neg h]
    refine ⟨fun hheld => .inr ⟨h, hheld⟩, fun hor => ?_⟩
    obtain rfl | hheld := hor
    · exact absurd rfl h
    · exact hheld.2

structure Tracks (events : List ModEvent) (d : ScancodeDecoder) (m : KeyboardModel) : Prop where
  idle : d.Idle
  leftShift : d.leftShift = true ↔ Held .leftShift events
  rightShift : d.rightShift = true ↔ Held .rightShift events
  shifted : m.shifted = true ↔ ∃ key, lastShift events = some (.press key)
  caps : d.capsLock = m.caps

theorem Tracks.nil : Tracks [] new .new where
  idle := ⟨rfl, rfl⟩
  leftShift := by decide
  rightShift := by decide
  shifted := by simp [lastShift, KeyboardModel.new]
  caps := rfl

theorem Tracks.append {d : ScancodeDecoder} {m : KeyboardModel} (h : Tracks events d m)
    (e : ModEvent) : Tracks (events ++ [e]) (d.push e.byte).2 (e.call m) := by
  obtain ⟨hidle, hleft, hright, hshifted, hcaps⟩ := h
  rw [push_byte hidle]
  cases e with
  | press key =>
    cases key <;> constructor <;>
      simp_all [held_append, lastShift_append, Idle, ModEvent.key, ModEvent.call, ModKey.isShift,
        KeyboardModel.pressShift, KeyboardModel.toggleCaps]
  | release key =>
    cases key <;> constructor <;>
      simp_all [held_append, lastShift_append, Idle, ModEvent.key, ModEvent.call, ModKey.isShift,
        KeyboardModel.releaseShift]

theorem tracks (events : List ModEvent) :
    Tracks events (afterBytes events) (afterCalls events) := by
  induction events using List.reverseRecOn with
  | nil => exact Tracks.nil
  | append_singleton events e ih =>
    rw [afterBytes, afterCalls, List.foldl_concat, List.foldl_concat]
    exact ih.append e

theorem isShift_of_lastShift (h : lastShift events = some e) : e.key.isShift = true :=
  (List.mem_filter.mp (List.mem_of_getLast? h)).2

theorem lastOf_of_lastShift (h : lastShift events = some e) : lastOf e.key events = some e := by
  induction events using List.reverseRecOn with
  | nil => exact absurd h (by simp [lastShift])
  | append_singleton events last ih =>
    have hshift := isShift_of_lastShift h
    rw [lastShift_append] at h
    rw [lastOf_append]
    by_cases hlast : last.key.isShift
    · rw [if_pos hlast] at h
      cases h
      exact if_pos rfl
    · rw [if_neg hlast] at h
      have hne : last.key ≠ e.key := by
        rintro heq
        exact hlast (heq ▸ hshift)
      rw [if_neg hne]
      exact ih h

theorem not_held_of_lastShift (h : lastShift events = none) (hkey : key.isShift = true) :
    ¬ Held key events := by
  intro hheld
  have hmem := List.mem_filter.mp (List.mem_of_getLast? hheld)
  rw [lastShift, List.getLast?_eq_none_iff, List.filter_eq_nil_iff] at h
  exact h _ hmem.1 hkey

theorem shiftActive_iff (h : key.isShift = true) :
    (afterBytes events).shiftActive = true ↔ Held key events ∨ Held key.other events := by
  have htracks := tracks events
  rw [shiftActive, Bool.or_eq_true, htracks.leftShift, htracks.rightShift]
  cases key with
  | leftShift => exact Iff.rfl
  | rightShift => exact Or.comm
  | capsLock => exact absurd h (by decide)

theorem agree_iff (events : List ModEvent) :
    (afterBytes events).Agrees (afterCalls events) ↔ ¬ LetGoOfOne events := by
  have htracks := tracks events
  rw [agrees_iff htracks.idle htracks.caps, Bool.eq_iff_iff, htracks.shifted]
  cases hlast : lastShift events with
  | none =>
    have hleft : ¬ Held .leftShift events := not_held_of_lastShift hlast rfl
    have hright : ¬ Held ModKey.leftShift.other events := not_held_of_lastShift hlast rfl
    rw [shiftActive_iff (rfl : ModKey.leftShift.isShift = true)]
    simp [LetGoOfOne, hlast, hleft, hright]
  | some e =>
    have hof := lastOf_of_lastShift hlast
    cases e with
    | press key =>
      have hkey : key.isShift = true := isShift_of_lastShift hlast
      have hheld : Held key events := hof
      rw [shiftActive_iff hkey]
      simp [LetGoOfOne, hlast, hheld]
    | release key =>
      have hkey : key.isShift = true := isShift_of_lastShift hlast
      have hheld : ¬ Held key events := by
        intro h
        cases hof.symm.trans h
      rw [shiftActive_iff hkey]
      simp [LetGoOfOne, hlast, hheld]

def overlap : List ModEvent := [.press .leftShift, .press .rightShift, .release .leftShift]

theorem overlap_disagrees : ¬ (afterBytes overlap).Agrees (afterCalls overlap) := by
  intro h
  exact absurd (h 0x02 (by decide)) (by decide)

end ScancodeDecoder

end FerricK
