import FerricK.Keyboard.Framing
import FerricK.Lib.Lists

namespace FerricK.ScancodeDecoder

def KeyCode.physical (k : KeyCode) : Bool × UInt8 := (k.extended, k.make)

def IsMakeOf (k : KeyCode) (s : KeySequence) : Prop :=
  ∃ m, s = .key m ∧ m.isBreak = false ∧ m.physical = k.physical

def Paired (seqs : List KeySequence) : Prop :=
  ∀ past k rest, seqs = past ++ .key k :: rest → k.isBreak = true → ∃ s ∈ past, IsMakeOf k s

def TwoCharacters (extended : Bool) (make : UInt8) : Prop :=
  controlKey extended make = none ∧ unshifted.getD make.toNat 0 ≠ 0 ∧ low make ≠ high make

/-- Which of its two characters a key types: caps and shift decide for a letter, shift for the
others. -/
def raised (d : ScancodeDecoder) (make : UInt8) : Bool :=
  if isAsciiLowercase (low make) then d.capsLock ^^ d.shiftActive else d.shiftActive

structure Tap (past : List KeySequence) (k : KeyCode) (before : List KeySequence)
    (pressed released : Key) : Prop where
  make : ∃ m between, past = before ++ .key m :: between ∧ IsMakeOf k (.key m) ∧
    (∀ s ∈ between, ¬ IsMakeOf k s) ∧ ((after before).feed m.bytes).1 = [.press pressed]
  release : ((after past).feed k.bytes).1 = [.release released]

variable {d d' : ScancodeDecoder} {k m : KeyCode} {extended : Bool} {make : UInt8}
  {past seqs : List KeySequence}

theorem encode_raised (h : TwoCharacters extended make) :
    d.model.encode (low make) (high make) = if d.raised make then high make else low make := by
  obtain ⟨-, hbase, hne⟩ := h
  unfold KeyboardModel.encode raised
  by_cases hlower : isAsciiLowercase (low make)
  · simp [hlower, model]
  · have hgraphic : isAsciiGraphic (low make) = true := by
      by_contra hplain
      exact hne ((keycap hbase).plain (by simpa using hplain)).symm
    simp [hlower, hgraphic, model]

theorem map_eq_iff : d.map extended make = d'.map extended make ↔
    (TwoCharacters extended make → d.raised make = d'.raised make) := by
  by_cases htwo : TwoCharacters extended make
  · obtain ⟨hcontrol, hbase, hne⟩ := id htwo
    rw [map_char d hcontrol hbase, map_char d' hcontrol hbase, encode_raised htwo,
      encode_raised htwo, Key.char.injEq]
    cases d.raised make <;> cases d'.raised make <;> simp [htwo, hne, hne.symm]
  · refine iff_of_true ?_ fun h => absurd h htwo
    cases hcontrol : controlKey extended make with
    | some key => simp [map, hcontrol]
    | none =>
      by_cases hbase : unshifted.getD make.toNat 0 = 0
      · simp only [map, hcontrol, hbase, ne_eq, not_true_eq_false, if_false]
      · have hsame : low make = high make := by
          by_contra hne
          exact htwo ⟨hcontrol, hbase, hne⟩
        rw [map_char d hcontrol hbase, map_char d' hcontrol hbase, hsame, KeyboardModel.encode_self,
          KeyboardModel.encode_self]

theorem feed_after (past : List KeySequence) (k : KeyCode) :
    ((after past).feed k.bytes).1 = [(after past).event k] := by
  rw [feed_key (after_eq past ▸ idle_stateAfter past)]

theorem release_key_iff (seqs : List KeySequence) (h : Paired seqs) (past : List KeySequence)
    (k : KeyCode) (rest : List KeySequence) (hseqs : seqs = past ++ .key k :: rest)
    (hbreak : k.isBreak = true) : ∃ before pressed released, Tap past k before pressed released ∧
      released = (after past).map k.extended k.make ∧
      (released = pressed ↔ (TwoCharacters k.extended k.make →
        (after past).raised k.make = (after before).raised k.make)) := by
  obtain ⟨before, s, between, hpast, hmake, hlast⟩ :=
    Lists.exists_last (h past k rest hseqs hbreak)
  obtain ⟨m, rfl, hm, hphysical⟩ := id hmake
  obtain ⟨hextended, hcode⟩ := Prod.mk.inj hphysical
  refine ⟨before, (after before).map k.extended k.make, (after past).map k.extended k.make,
    ⟨⟨m, between, hpast, hmake, hlast, ?_⟩, ?_⟩, rfl, map_eq_iff⟩
  · rw [feed_after, event, if_neg (by simp [hm]), hextended, hcode]
  · rw [feed_after, event, if_pos hbreak]

def releasedDigit : KeyCode where
  extended := false
  code := 0x82
  isCode := by decide

def shiftedDigit : List KeySequence :=
  [.key ⟨false, 0x2A, by decide⟩, .key ⟨false, 0x02, by decide⟩, .key ⟨false, 0xAA, by decide⟩,
    .key releasedDigit]

theorem paired_shiftedDigit : Paired shiftedDigit := by
  intro past k rest heq hbreak
  rcases past with _ | ⟨a, _ | ⟨b, _ | ⟨c, _ | ⟨d, past⟩⟩⟩⟩ <;>
    simp only [shiftedDigit, List.nil_append, List.cons_append, List.cons.injEq,
      KeySequence.key.injEq, List.nil_eq, List.append_eq_nil_iff, reduceCtorEq, and_false] at heq
  · obtain ⟨rfl, -⟩ := heq
    exact absurd hbreak (by decide)
  · obtain ⟨-, rfl, -⟩ := heq
    exact absurd hbreak (by decide)
  · obtain ⟨rfl, rfl, rfl, -⟩ := heq
    exact ⟨_, List.mem_cons_self, _, rfl, by decide, by decide⟩
  · obtain ⟨rfl, rfl, rfl, rfl, -⟩ := heq
    exact ⟨_, by simp, ⟨false, 0x02, by decide⟩, rfl, by decide, by decide⟩

theorem release_key_iff_shiftedDigit : ∃ before pressed released,
    Tap (shiftedDigit.take 3) releasedDigit before pressed released ∧
      released = (after (shiftedDigit.take 3)).map releasedDigit.extended releasedDigit.make ∧
      (released = pressed ↔ (TwoCharacters releasedDigit.extended releasedDigit.make →
        (after (shiftedDigit.take 3)).raised releasedDigit.make =
          (after before).raised releasedDigit.make)) :=
  release_key_iff shiftedDigit paired_shiftedDigit (shiftedDigit.take 3) releasedDigit [] rfl
    (by decide)

theorem shift_renames_release : Paired shiftedDigit ∧
    (new.feed (shiftedDigit.flatMap KeySequence.bytes)).1 =
      [.press .leftShift, .press (.char '!'), .release .leftShift, .release (.char '1')] ∧
    Tap (shiftedDigit.take 3) releasedDigit (shiftedDigit.take 1) (.char '!') (.char '1') := by
  refine ⟨paired_shiftedDigit, by decide, ⟨⟨false, 0x02, by decide⟩, _, rfl, ?_, ?_, by decide⟩,
    by decide⟩
  · exact ⟨_, rfl, by decide, by decide⟩
  · rintro s hs ⟨m, rfl, hm, -⟩
    obtain rfl := KeySequence.key.inj (List.mem_singleton.mp hs)
    exact absurd hm (by decide)

end FerricK.ScancodeDecoder
