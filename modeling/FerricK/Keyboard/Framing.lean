import FerricK.Keyboard.Agree
import FerricK.Lib.Bytes
import FerricK.Lib.Mealy

namespace FerricK.ScancodeDecoder

/-- The code of a key, after `0xE0` where the key is extended. -/
structure KeyCode where
  extended : Bool
  code : UInt8
  isCode : code ≠ 0xE0 ∧ code ≠ 0xE1
  deriving DecidableEq

namespace KeyCode

def bytes (k : KeyCode) : List UInt8 := if k.extended then [0xE0, k.code] else [k.code]

def isBreak (k : KeyCode) : Bool := k.code &&& 0x80 ≠ 0

def make (k : KeyCode) : UInt8 := k.code &&& 0x7F

end KeyCode

def pauseSequence : List UInt8 := [0xE1, 0x1D, 0x45, 0xE1, 0x9D, 0xC5]

inductive KeySequence
  | key (k : KeyCode)
  | pause
  deriving DecidableEq

namespace KeySequence

def bytes : KeySequence → List UInt8
  | key k => k.bytes
  | pause => pauseSequence

def plainCode : KeySequence → Option UInt8
  | key k => if k.extended then none else some k.code
  | pause => none

end KeySequence

def feed : ScancodeDecoder → List UInt8 → List KeyEvent × ScancodeDecoder := Mealy.feed push

def event (d : ScancodeDecoder) (k : KeyCode) : KeyEvent :=
  if k.isBreak then .release (d.map k.extended k.make) else .press (d.map k.extended k.make)

def eventOf (d : ScancodeDecoder) : KeySequence → Option KeyEvent
  | .key k => some (d.event k)
  | .pause => none

def plainCodes (past : List KeySequence) : List UInt8 := past.filterMap KeySequence.plainCode

def lastIsMake (make : UInt8) (past : List KeySequence) : Bool :=
  ((plainCodes past).filter fun code => code = make ∨ code = make ||| 0x80).getLast? = some make

/-- Neither prefix nor pause is pending, and the modifiers are those of the history. -/
def stateAfter (past : List KeySequence) : ScancodeDecoder where
  extended := false
  pause := false
  leftShift := lastIsMake 0x2A past
  rightShift := lastIsMake 0x36 past
  capsLock := (plainCodes past).count 0x3A % 2 = 1

def eventsAfter : List KeySequence → List KeySequence → List KeyEvent :=
  Mealy.outputs fun past s => ((stateAfter past).eventOf s).toList

attribute [ext] ScancodeDecoder

variable {d : ScancodeDecoder} {k : KeyCode} {past : List KeySequence} {make : UInt8}

theorem map_eq_control {extended : Bool} {key : Key} (hchar : key.isChar = false)
    (hunknown : ∀ n, key ≠ .unknown n) :
    d.map extended make = key ↔ controlKey extended make = some key := by
  unfold map
  split
  · rename_i found hfound
    rw [hfound, Option.some.injEq]
  · rename_i hnone
    rw [hnone]
    refine iff_of_false ?_ (by simp)
    dsimp only
    split
    · rintro rfl
      exact absurd hchar (by simp [Key.isChar])
    · exact fun h => hunknown _ h.symm

theorem map_eq_modKey (key : ModKey) {extended : Bool} :
    d.map extended make = key.key ↔ extended = false ∧ make = key.make := by
  have hcontrol : d.map extended make = key.key ↔ controlKey extended make = some key.key := by
    cases key <;> exact map_eq_control rfl (by simp [ModKey.key])
  rw [hcontrol]
  clear hcontrol
  revert make
  apply Bytes.forall_byte
  cases key <;> cases extended <;> decide +kernel

theorem code_cases (key : ModKey) (code : UInt8) :
    (code = key.make ↔ code &&& 0x80 = 0 ∧ code &&& 0x7F = key.make) ∧
    (code = key.make ||| 0x80 ↔ code &&& 0x80 ≠ 0 ∧ code &&& 0x7F = key.make) := by
  revert code
  apply Bytes.forall_byte
  cases key <;> decide +kernel

theorem event_eq_press (key : ModKey) :
    d.event k = .press key.key ↔ k.extended = false ∧ k.code = key.make := by
  rw [(code_cases key k.code).1, event, KeyCode.isBreak]
  by_cases hbreak : k.code &&& 0x80 = 0
  · simp [hbreak, map_eq_modKey, KeyCode.make]
  · simp [hbreak]

theorem event_eq_release (key : ModKey) :
    d.event k = .release key.key ↔ k.extended = false ∧ k.code = key.make ||| 0x80 := by
  rw [(code_cases key k.code).2, event, KeyCode.isBreak]
  by_cases hbreak : k.code &&& 0x80 = 0
  · simp [hbreak]
  · simp [hbreak, map_eq_modKey, KeyCode.make]

@[simp] theorem extended_update (e : KeyEvent) : (d.update e).extended = d.extended := by
  unfold update
  split <;> rfl

@[simp] theorem pause_update (e : KeyEvent) : (d.update e).pause = d.pause := by
  unfold update
  split <;> rfl

theorem leftShift_update (e : KeyEvent) : (d.update e).leftShift =
    if e = .press .leftShift then true else if e = .release .leftShift then false
      else d.leftShift := by
  unfold update
  split <;> simp_all

theorem rightShift_update (e : KeyEvent) : (d.update e).rightShift =
    if e = .press .rightShift then true else if e = .release .rightShift then false
      else d.rightShift := by
  unfold update
  split <;> simp_all

theorem capsLock_update (e : KeyEvent) : (d.update e).capsLock =
    if e = .press .capsLock then !d.capsLock else d.capsLock := by
  unfold update
  split <;> simp_all

theorem and_mask_of_press {code : UInt8} (h : code &&& 0x80 = 0) : code &&& 0x7F = code := by
  revert code
  apply Bytes.forall_byte
  decide +kernel

theorem make_of_press (h : k.code &&& 0x80 = 0) : k.make = k.code := and_mask_of_press h

theorem push_code (hpause : d.pause = false) (hextended : d.extended = k.extended) :
    d.push k.code = (some (d.event k), { d with extended := false }.update (d.event k)) := by
  obtain ⟨h0, h1⟩ := k.isCode
  have hevent : d.event k = if k.code &&& 0x80 ≠ 0 then
      .release (d.map d.extended (k.code &&& 0x7F)) else .press (d.map d.extended k.code) := by
    rw [event, hextended]
    by_cases hbreak : k.code &&& 0x80 = 0
    · simp [KeyCode.isBreak, hbreak, make_of_press hbreak]
    · simp [KeyCode.isBreak, hbreak, KeyCode.make]
  rw [hevent]
  simp [push, hpause, h0, h1]

theorem feed_key (hd : d.Idle) (k : KeyCode) :
    d.feed k.bytes = ([d.event k], d.update (d.event k)) := by
  obtain ⟨hpause, hextended⟩ := hd
  have hsame : { d with extended := false } = d := by
    rw [← hextended]
  cases hk : k.extended with
  | false =>
    simp [feed, Mealy.feed, KeyCode.bytes, hk, push_code hpause (hextended.trans hk.symm), hsame]
  | true =>
    have hprefix : d.push 0xE0 = (none, { d with extended := true }) := by
      simp [push, hpause]
    have hcode : { d with extended := true }.push k.code =
        (some (d.event k), d.update (d.event k)) := by
      rw [push_code (d := { d with extended := true }) hpause hk.symm]
      exact congrArg (fun d' : ScancodeDecoder => (_, d'.update (d.event k))) hsame
    simp [feed, Mealy.feed, KeyCode.bytes, hk, hprefix, hcode]

theorem feed_pause (hd : d.Idle) : d.feed pauseSequence = ([], d) := by
  obtain ⟨extended, pause, left, right, caps⟩ := d
  obtain ⟨rfl, rfl⟩ := hd
  rfl

theorem plainCodes_concat (past : List KeySequence) (s : KeySequence) :
    plainCodes (past ++ [s]) = plainCodes past ++ s.plainCode.toList := by
  rw [plainCodes, List.filterMap_append, ← plainCodes]
  cases h : s.plainCode <;> simp [h]

theorem lastIsMake_concat (make : UInt8) (past : List KeySequence) (s : KeySequence) :
    lastIsMake make (past ++ [s]) =
      if s.plainCode = some make then true
      else if s.plainCode = some (make ||| 0x80) then false
      else lastIsMake make past := by
  rw [lastIsMake, plainCodes_concat, List.filter_append]
  cases h : s.plainCode with
  | none => simp [lastIsMake]
  | some code =>
    rw [Option.toList_some, List.filter_singleton]
    by_cases hmake : code = make
    · simp [hmake]
    · by_cases hbreak : code = make ||| 0x80
      · subst hbreak
        simp [hmake]
      · simp [hmake, hbreak, lastIsMake]

theorem odd_count_concat (past : List KeySequence) (s : KeySequence) :
    decide ((plainCodes (past ++ [s])).count 0x3A % 2 = 1) =
      if s.plainCode = some 0x3A then !decide ((plainCodes past).count 0x3A % 2 = 1)
      else decide ((plainCodes past).count 0x3A % 2 = 1) := by
  rw [plainCodes_concat, List.count_append]
  cases h : s.plainCode with
  | none => rw [if_neg (by simp), Option.toList_none, List.count_nil, Nat.add_zero]
  | some code =>
    by_cases hcaps : code = 0x3A
    · simp only [hcaps, Option.toList_some, List.count_singleton_self, if_true]
      rw [← decide_not]
      exact decide_eq_decide.mpr (by omega)
    · simp [hcaps]

theorem idle_stateAfter (past : List KeySequence) : (stateAfter past).Idle := ⟨rfl, rfl⟩

theorem plainCode_key (k : KeyCode) (code : UInt8) :
    (KeySequence.key k).plainCode = some code ↔ k.extended = false ∧ k.code = code := by
  cases h : k.extended <;> simp [KeySequence.plainCode, h]

theorem update_stateAfter (past : List KeySequence) (k : KeyCode) :
    (stateAfter past).update ((stateAfter past).event k) = stateAfter (past ++ [.key k]) := by
  have hpress := fun key =>
    (event_eq_press (d := stateAfter past) key).trans (plainCode_key k _).symm
  have hrelease := fun key =>
    (event_eq_release (d := stateAfter past) key).trans (plainCode_key k _).symm
  apply ScancodeDecoder.ext
  · exact extended_update _
  · exact pause_update _
  · rw [leftShift_update]
    exact (if_congr (hpress .leftShift) rfl (if_congr (hrelease .leftShift) rfl rfl)).trans
      (lastIsMake_concat 0x2A past (.key k)).symm
  · rw [rightShift_update]
    exact (if_congr (hpress .rightShift) rfl (if_congr (hrelease .rightShift) rfl rfl)).trans
      (lastIsMake_concat 0x36 past (.key k)).symm
  · rw [capsLock_update]
    exact (if_congr (hpress .capsLock) rfl rfl).trans (odd_count_concat past (.key k)).symm

theorem stateAfter_pause (past : List KeySequence) :
    stateAfter (past ++ [.pause]) = stateAfter past := by
  simp [stateAfter, lastIsMake_concat, plainCodes_concat, KeySequence.plainCode]

theorem feed_sequence (past : List KeySequence) (s : KeySequence) :
    (stateAfter past).feed s.bytes =
      (((stateAfter past).eventOf s).toList, stateAfter (past ++ [s])) := by
  cases s with
  | key k =>
    rw [KeySequence.bytes, feed_key (idle_stateAfter past), update_stateAfter]
    rfl
  | pause =>
    rw [KeySequence.bytes, feed_pause (idle_stateAfter past), stateAfter_pause]
    rfl

theorem feed_sequences (past seqs : List KeySequence) :
    (stateAfter past).feed (seqs.flatMap KeySequence.bytes) =
      (eventsAfter past seqs, stateAfter (past ++ seqs)) :=
  Mealy.feed_blocks feed_sequence past seqs

def after (past : List KeySequence) : ScancodeDecoder :=
  (new.feed (past.flatMap KeySequence.bytes)).2

theorem after_eq (past : List KeySequence) : after past = stateAfter past :=
  congrArg Prod.snd (feed_sequences [] past)

theorem framed (seqs : List KeySequence) :
    new.feed (seqs.flatMap KeySequence.bytes) = (eventsAfter [] seqs, stateAfter seqs) :=
  feed_sequences [] seqs

end FerricK.ScancodeDecoder
