import FerricK.Keyboard.Release
import Mathlib.Algebra.Ring.Parity

namespace FerricK.ScancodeDecoder

inductive Item
  | sent (s : KeySequence)
  | again (k : KeyCode)
  deriving DecidableEq

def original (items : List Item) : List KeySequence :=
  items.filterMap fun
    | .sent s => some s
    | .again _ => none

def withRepeats (items : List Item) : List KeySequence :=
  items.map fun
    | .sent s => s
    | .again k => .key k

def KeySequence.isOf (k : KeyCode) : KeySequence → Bool
  | .key m => m.extended = k.extended ∧ m.make = k.make
  | .pause => false

def IsHeld (past : List KeySequence) (k : KeyCode) : Prop :=
  k.isBreak = false ∧ (past.filter (KeySequence.isOf k)).getLast? = some (.key k)

def Repeats (items : List Item) : Prop :=
  ∀ before k rest, items = before ++ .again k :: rest → IsHeld (withRepeats before) k

def capsRepeats (items : List Item) : Nat :=
  items.countP fun
    | .sent _ => false
    | .again k => (KeySequence.key k).plainCode = some 0x3A

def KeySequence.isLetter : KeySequence → Bool
  | .key k => controlKey k.extended k.make = none ∧ isAsciiLowercase (low k.make)
  | .pause => false

/-- The decoder with `n` repeats of caps lock next to the one without repeats. -/
structure Compared (n : Nat) (d d' : ScancodeDecoder) : Prop where
  leftShift : d.leftShift = d'.leftShift
  rightShift : d.rightShift = d'.rightShift
  capsLock : d.capsLock = d'.capsLock ↔ Even n
  event : ∀ s : KeySequence, (d.feed s.bytes).1 = (d'.feed s.bytes).1 ↔
    (s.isLetter = true → Even n)

variable {past : List KeySequence} {k : KeyCode} {items : List Item} {i : Item} {make : UInt8}

theorem original_concat (items : List Item) (i : Item) : original (items ++ [i]) =
    original items ++ match i with
      | .sent s => [s]
      | .again _ => [] := by
  cases i <;> simp [original]

theorem withRepeats_concat (items : List Item) (i : Item) : withRepeats (items ++ [i]) =
    withRepeats items ++ match i with
      | .sent s => [s]
      | .again k => [.key k] := by
  cases i <;> simp [withRepeats]

theorem isHeld_concat (s : KeySequence) : IsHeld (past ++ [s]) k ↔
    k.isBreak = false ∧ if s.isOf k then s = .key k else IsHeld past k := by
  unfold IsHeld
  rw [List.filter_append, List.filter_singleton]
  cases h : s.isOf k <;> simp +contextual

theorem isOf_of_plainCode {s : KeySequence} (key : ModKey)
    (hk : (KeySequence.key k).plainCode = some key.make)
    (hs : s.plainCode = some key.make ∨ s.plainCode = some (key.make ||| 0x80)) :
    s.isOf k = true := by
  cases s with
  | pause => simp [KeySequence.plainCode] at hs
  | key m =>
    obtain ⟨hextended, hcode⟩ := (plainCode_key k _).mp hk
    rw [plainCode_key, plainCode_key, (code_cases key m.code).1, (code_cases key m.code).2] at hs
    have hmake := ((code_cases key k.code).1.mp hcode).2
    simp only [KeySequence.isOf, KeyCode.make, hextended, hmake, decide_eq_true_eq]
    obtain ⟨hm, -, hcode'⟩ | ⟨hm, -, hcode'⟩ := hs
    · exact ⟨hm, hcode'⟩
    · exact ⟨hm, hcode'⟩

theorem IsHeld.lastIsMake (key : ModKey) (h : IsHeld past k)
    (hk : (KeySequence.key k).plainCode = some key.make) : lastIsMake key.make past = true := by
  induction past using List.reverseRecOn with
  | nil => simp [IsHeld] at h
  | append_singleton past s ih =>
    obtain ⟨-, hlast⟩ := (isHeld_concat s).mp h
    rw [lastIsMake_concat]
    by_cases hof : s.isOf k = true
    · rw [if_pos hof] at hlast
      rw [hlast, if_pos hk]
    · rw [if_neg hof] at hlast
      rw [if_neg fun hs => hof (isOf_of_plainCode key hk (.inl hs)),
        if_neg fun hs => hof (isOf_of_plainCode key hk (.inr hs))]
      exact ih hlast

theorem Repeats.of_concat (h : Repeats (items ++ [i])) :
    Repeats items ∧ ∀ k, i = .again k → IsHeld (withRepeats items) k := by
  constructor
  · rintro before k rest rfl
    exact h before k (rest ++ [i]) (by simp)
  · rintro k rfl
    exact h items k [] rfl

theorem lastIsMake_withRepeats (key : ModKey) (h : Repeats items) :
    lastIsMake key.make (withRepeats items) = lastIsMake key.make (original items) := by
  induction items using List.reverseRecOn with
  | nil => rfl
  | append_singleton items i ih =>
    obtain ⟨hitems, hagain⟩ := h.of_concat
    rw [original_concat, withRepeats_concat]
    cases i with
    | sent s => simp only [lastIsMake_concat, ih hitems]
    | again k =>
      have hheld := hagain k rfl
      simp only [List.append_nil, lastIsMake_concat]
      rw [← ih hitems]
      by_cases hmake : (KeySequence.key k).plainCode = some key.make
      · rw [if_pos hmake, hheld.lastIsMake key hmake]
      · rw [if_neg hmake, if_neg]
        intro hbreak
        have hcode := ((plainCode_key k _).mp hbreak).2
        have hbit := ((code_cases key k.code).2.mp hcode).1
        exact absurd hheld.1 (by simpa [KeyCode.isBreak] using hbit)

theorem count_withRepeats (items : List Item) : (plainCodes (withRepeats items)).count 0x3A =
    (plainCodes (original items)).count 0x3A + capsRepeats items := by
  induction items using List.reverseRecOn with
  | nil => rfl
  | append_singleton items i ih =>
    rw [original_concat, withRepeats_concat, capsRepeats, List.countP_append, ← capsRepeats]
    cases i with
    | sent s =>
      simp only [plainCodes_concat, List.count_append, ih]
      simp
      omega
    | again k =>
      simp only [List.append_nil, plainCodes_concat, List.count_append, ih]
      cases hk : (KeySequence.key k).plainCode with
      | none => simp [hk]
      | some code =>
        by_cases hcode : code = 0x3A
        · simp [hk, hcode]
          omega
        · simp [hk, hcode]

theorem letter_iff (k : KeyCode) : (KeySequence.key k).isLetter = true ↔
    TwoCharacters k.extended k.make ∧ isAsciiLowercase (low k.make) = true := by
  have hall : ∀ n : Fin 128, isAsciiLowercase (asChar (unshifted.getD n 0)) = true →
      unshifted.getD n 0 ≠ 0 ∧ asChar (unshifted.getD n 0) ≠ asChar (shifted.getD n 0) := by
    decide +kernel
  have hmake : k.make.toNat < 128 := by
    rw [KeyCode.make, UInt8.toNat_and]
    exact Nat.lt_succ_of_le Nat.and_le_right
  simp only [KeySequence.isLetter, TwoCharacters, decide_eq_true_eq]
  constructor
  · rintro ⟨hcontrol, hlower⟩
    obtain ⟨hbase, hne⟩ := hall ⟨k.make.toNat, hmake⟩ hlower
    exact ⟨⟨hcontrol, hbase, hne⟩, hlower⟩
  · rintro ⟨⟨hcontrol, -⟩, hlower⟩
    exact ⟨hcontrol, hlower⟩

theorem event_eq_iff {d d' : ScancodeDecoder} (hshift : d.shiftActive = d'.shiftActive)
    (k : KeyCode) : d.event k = d'.event k ↔
      ((KeySequence.key k).isLetter = true → d.capsLock = d'.capsLock) := by
  have hmap : d.event k = d'.event k ↔
      d.map k.extended k.make = d'.map k.extended k.make := by
    unfold event
    cases k.isBreak <;> simp
  rw [hmap, map_eq_iff, letter_iff, and_imp]
  refine forall_congr' fun _ => ?_
  rw [raised, raised, hshift]
  by_cases hlower : isAsciiLowercase (low k.make) = true
  · simp [hlower]
  · simp [hlower]

theorem Compared.of_flags {n : Nat} {d d' : ScancodeDecoder} (hd : d.Idle) (hd' : d'.Idle)
    (hleft : d.leftShift = d'.leftShift) (hright : d.rightShift = d'.rightShift)
    (hcaps : d.capsLock = d'.capsLock ↔ Even n) : Compared n d d' where
  leftShift := hleft
  rightShift := hright
  capsLock := hcaps
  event s := by
    cases s with
    | key k =>
      have hshift : d.shiftActive = d'.shiftActive := by
        rw [shiftActive, shiftActive, hleft, hright]
      rw [KeySequence.bytes, feed_key hd, feed_key hd', ← hcaps, ← event_eq_iff hshift]
      simp
    | pause =>
      rw [KeySequence.bytes, feed_pause hd, feed_pause hd']
      simp [KeySequence.isLetter]

theorem repeats_compared (items : List Item) (h : Repeats items) (before : List Item)
    (hbefore : before <+: items) :
    Compared (capsRepeats before) (after (withRepeats before)) (after (original before)) := by
  obtain ⟨rest, rfl⟩ := hbefore
  have hrepeats : Repeats before := by
    rintro first k between rfl
    exact h first k (between ++ rest) (by simp)
  rw [after_eq, after_eq]
  apply Compared.of_flags (idle_stateAfter _) (idle_stateAfter _)
  · exact lastIsMake_withRepeats .leftShift hrepeats
  · exact lastIsMake_withRepeats .rightShift hrepeats
  · rw [stateAfter, stateAfter, count_withRepeats, Nat.even_iff]
    simp only [decide_eq_decide]
    omega

def heldCaps : List Item :=
  [.sent (.key ⟨false, 0x3A, by decide⟩), .again ⟨false, 0x3A, by decide⟩,
    .sent (.key ⟨false, 0x1E, by decide⟩)]

theorem repeats_heldCaps : Repeats heldCaps := by
  intro before k rest heq
  rcases before with _ | ⟨a, _ | ⟨b, _ | ⟨c, before⟩⟩⟩ <;>
    simp only [heldCaps, List.nil_append, List.cons_append, List.cons.injEq, Item.again.injEq,
      List.nil_eq, List.append_eq_nil_iff, reduceCtorEq, false_and, and_false] at heq
  obtain ⟨rfl, rfl, -⟩ := heq
  exact ⟨rfl, by decide⟩

theorem repeats_compared_heldCaps :
    Compared 1 (after (withRepeats heldCaps)) (after (original heldCaps)) :=
  repeats_compared heldCaps repeats_heldCaps heldCaps (List.prefix_refl heldCaps)

theorem caps_repeat_changes_letters : Repeats heldCaps ∧
    (new.feed ((withRepeats heldCaps).flatMap KeySequence.bytes)).1 =
      [.press .capsLock, .press .capsLock, .press (.char 'a')] ∧
    (new.feed ((original heldCaps).flatMap KeySequence.bytes)).1 =
      [.press .capsLock, .press (.char 'A')] :=
  ⟨repeats_heldCaps, by decide, by decide⟩

end FerricK.ScancodeDecoder
