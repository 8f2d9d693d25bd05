import FerricK.Keyboard.LineEditor
import FerricK.Keyboard.Pause

/-! What the keys behind an `0xE0` type: `map` looks at the prefix for the control keys alone. -/

namespace FerricK.ScancodeDecoder

def Prefixed (l : List UInt8) : Prop :=
  ∃ m n, l = m ++ 0xE0 :: n ∧ ¬ Pending m ∧ ((new.feed (m ++ [0xE0])).2.feed n).1 = []

def typed (bs : List UInt8) : LineEditor :=
  (new.feed bs).1.foldl (fun e event => (e.handle event).2) .new

/-- Text comes from plain keys and the keypad slash; other prefixed codes that are no control keys
are unknown. -/
structure NoExtendedText (bs : List UInt8) : Prop where
  entered : ∀ l b r c, bs = l ++ b :: r → (typed (l ++ [b])).line = (typed l).line ++ [c] →
    ¬ Prefixed l ∧ Printable b ∨ Prefixed l ∧ b = 0x35 ∧ c = '/'
  unknown : ∀ l b r, bs = l ++ b :: r → Prefixed l → ¬ Pending l → b ≠ 0xE0 → b ≠ 0xE1 →
    controlKey true (b &&& 0x7F) = none → b &&& 0x7F ≠ 0x35 →
    (∃ event, ((new.feed l).2.push b).1 = some event ∧ event.key = .unknown (b &&& 0x7F)) ∧
      (typed (l ++ [b])).line = (typed l).line

variable {d : ScancodeDecoder} {l bs : List UInt8} {b : UInt8} {extended : Bool} {make : UInt8}
  {c : Char}

theorem extended_push : (d.push b).2.extended = true ↔
    d.pause = false ∧ b = 0xE0 ∨ d.extended = true ∧ (d.push b).1 = none := by
  rw [push_eq_none]
  unfold push
  cases hpause : d.pause with
  | true => by_cases hb : b = 0xC5 <;> simp [hb]
  | false =>
    by_cases h0 : b = 0xE0
    · simp [h0]
    · by_cases h1 : b = 0xE1 <;> simp [h0, h1]

theorem prefixed_concat : Prefixed (l ++ [b]) ↔
    ¬ Pending l ∧ b = 0xE0 ∨ Prefixed l ∧ ((new.feed l).2.push b).1 = none := by
  have hevents : ∀ m n, ((new.feed (m ++ [0xE0])).2.feed (n ++ [b])).1 = [] ↔
      ((new.feed (m ++ [0xE0])).2.feed n).1 = [] ∧
        ((new.feed (m ++ 0xE0 :: n)).2.push b).1 = none := by
    intro m n
    have hstate : (new.feed (m ++ 0xE0 :: n)).2 = ((new.feed (m ++ [0xE0])).2.feed n).2 := by
      have hsplit : m ++ 0xE0 :: n = m ++ [0xE0] ++ n := by simp
      rw [hsplit, feed, Mealy.feed_append]
    rw [hstate, feed, Mealy.feed_concat, List.append_eq_nil_iff, Option.toList_eq_nil_iff]
  constructor
  · rintro ⟨m, n, heq, hm, hn⟩
    cases n using List.reverseRecOn with
    | nil =>
      obtain ⟨rfl, hb⟩ := List.append_inj' heq rfl
      exact .inl ⟨hm, List.head_eq_of_cons_eq hb⟩
    | append_singleton n last =>
      rw [← List.cons_append, ← List.append_assoc] at heq
      obtain ⟨rfl, hlast⟩ := List.append_inj' heq rfl
      obtain rfl := List.head_eq_of_cons_eq hlast
      obtain ⟨hn, hb⟩ := (hevents m n).mp hn
      exact .inr ⟨⟨m, n, rfl, hm, hn⟩, hb⟩
  · rintro (⟨hl, rfl⟩ | ⟨⟨m, n, rfl, hm, hn⟩, hb⟩)
    · exact ⟨l, [], rfl, hl, rfl⟩
    · exact ⟨m, n ++ [b], by simp, hm, (hevents m n).mpr ⟨hn, hb⟩⟩

theorem extended_feed (l : List UInt8) : (new.feed l).2.extended = true ↔ Prefixed l := by
  induction l using List.reverseRecOn with
  | nil => simp [feed, Mealy.feed, new, Prefixed]
  | append_singleton l b ih =>
    rw [prefixed_concat, ← ih, ← pause_feed, feed, Mealy.feed_concat, extended_push, ← feed,
      Bool.not_eq_true]

theorem typed_concat (l : List UInt8) (b : UInt8) : typed (l ++ [b]) =
    ((new.feed l).2.push b).1.elim (typed l) fun event => ((typed l).handle event).2 := by
  rw [typed, feed, Mealy.feed_concat, ← feed, List.foldl_append, ← typed]
  cases ((new.feed l).2.push b).1 <;> rfl

theorem push_key (hpause : d.pause = false) (h0 : b ≠ 0xE0) (h1 : b ≠ 0xE1) :
    ∃ event, (d.push b).1 = some event ∧ event.key = d.map d.extended (b &&& 0x7F) := by
  by_cases hbreak : b &&& 0x80 = 0
  · exact ⟨.press (d.map d.extended b), by simp [push, hpause, h0, h1, hbreak],
      congrArg (d.map d.extended) (and_mask_of_press hbreak).symm⟩
  · exact ⟨.release (d.map d.extended (b &&& 0x7F)), by simp [push, hpause, h0, h1, hbreak], rfl⟩

theorem push_eq_press {key : Key} (h : (d.push b).1 = some (.press key)) :
    d.pause = false ∧ b &&& 0x7F = b ∧ d.map d.extended b = key := by
  have hnone : ¬(d.pause = true ∨ b = 0xE0 ∨ b = 0xE1) := by
    rw [← push_eq_none, h]
    simp
  obtain ⟨hpause, h0, h1⟩ : d.pause = false ∧ b ≠ 0xE0 ∧ b ≠ 0xE1 := by simpa using hnone
  by_cases hbreak : b &&& 0x80 = 0
  · refine ⟨hpause, and_mask_of_press hbreak, ?_⟩
    simpa [push, hpause, h0, h1, hbreak] using h
  · simp [push, hpause, h0, h1, hbreak] at h

theorem map_eq_unknown (hcontrol : controlKey extended make = none)
    (hbase : unshifted.getD make.toNat 0 = 0) : d.map extended make = .unknown make := by
  simp only [map, hcontrol, hbase, ne_eq, not_true_eq_false, if_false]

theorem map_eq_char (h : d.map extended make = .char c) :
    controlKey extended make = none ∧ unshifted.getD make.toNat 0 ≠ 0 := by
  have hcontrol : controlKey extended make = none := by
    cases hkey : controlKey extended make with
    | none => rfl
    | some key =>
      have hchar := isChar_controlKey hkey
      have hmap : d.map extended make = key := by simp only [map, hkey]
      rw [← hmap, h] at hchar
      cases hchar
  exact ⟨hcontrol, fun hzero => by rw [map_eq_unknown hcontrol hzero] at h; cases h⟩

theorem extended_text (b : UInt8) (h : unshifted.getD (b &&& 0x7F).toNat 0 ≠ 0) :
    controlKey true (b &&& 0x7F) = none ∧ b ≠ 0xE0 ∧ b ≠ 0xE1 := by
  revert b
  apply Bytes.forall_byte
  decide +kernel

theorem typed_eq_concat (h : (typed (l ++ [b])).line = (typed l).line ++ [c]) :
    ((new.feed l).2.push b).1 = some (.press (.char c)) ∧
      (typed l).line.length < maxLineChars := by
  rw [typed_concat] at h
  cases hevent : ((new.feed l).2.push b).1 with
  | none => simp [hevent] at h
  | some event =>
    rw [hevent, Option.elim_some, LineEditor.line_handle_concat] at h
    obtain ⟨rfl, -, hroom⟩ := h
    exact ⟨rfl, hroom⟩

/-- The prefixed codes with an entry in the layout: the keypad slash, and a press of it finds no
shift or no room. -/
def OnlySlash (bs : List UInt8) : Prop :=
  ∀ l b r, bs = l ++ b :: r → Prefixed l → ¬ Pending l →
    unshifted.getD (b &&& 0x7F).toNat 0 ≠ 0 →
    b &&& 0x7F = 0x35 ∧ (b = 0x35 → (new.feed l).2.shiftActive = false ∨
      (typed l).line.length = maxLineChars)

theorem map_slash (d : ScancodeDecoder) :
    d.map true 0x35 = .char (if d.shiftActive then '?' else '/') := by
  have hlow : low 0x35 = '/' := by decide
  have hhigh : high 0x35 = '?' := by decide
  have hlower : isAsciiLowercase '/' = false := by decide
  have hgraphic : isAsciiGraphic '/' = true := by decide
  rw [map_char d (by decide) (by decide), hlow, hhigh]
  simp [KeyboardModel.encode, hlower, hgraphic, model]

theorem NoExtendedText.onlySlash (h : NoExtendedText bs) : OnlySlash bs := by
  intro l b r heq hprefixed hpending hbase
  obtain ⟨hcontrol, h0, h1⟩ := extended_text b hbase
  have hextended : (new.feed l).2.extended = true := (extended_feed l).mpr hprefixed
  have hpause : (new.feed l).2.pause = false := by
    rwa [← pause_feed, Bool.not_eq_true] at hpending
  obtain ⟨event, hpush, hkey⟩ := push_key hpause h0 h1
  rw [hextended, map_char _ hcontrol hbase] at hkey
  have hslash : b &&& 0x7F = 0x35 := by
    by_contra hne
    obtain ⟨⟨event', hpush', hunknown⟩, -⟩ :=
      h.unknown l b r heq hprefixed hpending h0 h1 hcontrol hne
    obtain rfl := Option.some.inj (hpush.symm.trans hpush')
    exact absurd (hkey.symm.trans hunknown) (by simp)
  refine ⟨hslash, ?_⟩
  rintro rfl
  by_contra hnot
  obtain ⟨hshift, hfull⟩ := not_or.mp hnot
  have hevent : ((new.feed l).2.push 0x35).1 = some (.press (.char '?')) := by
    have hmap := map_slash (new.feed l).2
    rw [if_pos (Bool.not_eq_false _ ▸ hshift)] at hmap
    have hmake : (0x35 : UInt8) &&& 0x80 = 0 := by decide
    simp [push, hpause, hextended, hmap, hmake]
  have hline : (typed (l ++ [0x35])).line = (typed l).line ++ ['?'] := by
    rw [typed_concat, hevent, Option.elim_some, LineEditor.line_handle_concat]
    exact ⟨rfl, by decide, lt_of_le_of_ne (typed l).length_le hfull⟩
  obtain ⟨hplain, -⟩ | ⟨-, -, hchar⟩ := h.entered l 0x35 r '?' heq hline
  · exact hplain hprefixed
  · exact absurd hchar (by decide)

theorem OnlySlash.noExtendedText (h : OnlySlash bs) : NoExtendedText bs where
  entered := by
    intro l b r c heq hline
    obtain ⟨hevent, hroom⟩ := typed_eq_concat hline
    obtain ⟨hpause, hmask, hmap⟩ := push_eq_press hevent
    have hpending : ¬ Pending l := by rw [← pause_feed, hpause]; simp
    obtain ⟨hcontrol, hbase⟩ := map_eq_char hmap
    by_cases hprefixed : Prefixed l
    · obtain ⟨hslash, hshift⟩ := h l b r heq hprefixed hpending (by rwa [hmask])
      obtain rfl := hmask.symm.trans hslash
      have hoff := (hshift rfl).resolve_right (ne_of_lt hroom)
      rw [(extended_feed l).mpr hprefixed, map_slash, hoff] at hmap
      exact .inr ⟨hprefixed, rfl, (Key.char.inj hmap).symm⟩
    · rw [← extended_feed, Bool.not_eq_true] at hprefixed
      rw [hprefixed] at hcontrol
      rw [← extended_feed, Bool.not_eq_true]
      exact .inl ⟨hprefixed, hcontrol, hbase⟩
  unknown := by
    intro l b r heq hprefixed hpending h0 h1 hcontrol hne
    have hbase : unshifted.getD (b &&& 0x7F).toNat 0 = 0 := by
      by_contra hbase
      exact hne (h l b r heq hprefixed hpending hbase).1
    have hpause : (new.feed l).2.pause = false := by
      rwa [← pause_feed, Bool.not_eq_true] at hpending
    obtain ⟨event, hpush, hkey⟩ := push_key hpause h0 h1
    rw [(extended_feed l).mpr hprefixed, map_eq_unknown hcontrol hbase] at hkey
    refine ⟨⟨event, hpush, hkey⟩, ?_⟩
    rw [typed_concat, hpush, Option.elim_some, LineEditor.line_handle_unknown hkey]

theorem no_extended_text_iff (bs : List UInt8) : NoExtendedText bs ↔ OnlySlash bs :=
  ⟨NoExtendedText.onlySlash, OnlySlash.noExtendedText⟩

theorem volume_types_b : ¬ NoExtendedText [0xE0, 0x30] := by
  intro h
  obtain ⟨hplain, -⟩ | ⟨-, hslash, -⟩ := h.entered [0xE0] 0x30 [] 'b' rfl (by decide)
  · exact hplain ⟨[], [], rfl, by simp [Pending], rfl⟩
  · exact absurd hslash (by decide)

end FerricK.ScancodeDecoder
