import FerricK.Font.Safety
import FerricK.Lib.Lists

namespace FerricK.Font

open Rust

structure Record (α : Type) where
  direct : List α
  sequences : List (List α)

def firstListing (code : α → Nat) (records : List (Record α)) (c : Char) : Option Nat :=
  records.findIdx? fun r => (r.direct.map code).contains c.toNat

structure CodeUnit where
  value : UInt16
  unmarked : value ≠ 0xFFFE ∧ value ≠ 0xFFFF

def CodeUnit.toNat (w : CodeUnit) : Nat := w.value.toNat

def Record.words (r : Record CodeUnit) : List Nat :=
  r.direct.map CodeUnit.toNat ++ r.sequences.flatMap (fun s => 0xFFFE :: s.map CodeUnit.toNat) ++
    [0xFFFF]

def psf1Table (records : List (Record CodeUnit)) : List UInt8 :=
  (records.flatMap Record.words).flatMap (Bytes.toLE 2)

def Record.utf8 (r : Record Char) : List UInt8 :=
  r.direct.flatMap String.utf8EncodeChar ++
    r.sequences.flatMap (fun s => 0xFE :: s.flatMap String.utf8EncodeChar) ++ [0xFF]

def psf2Table (records : List (Record Char)) : List UInt8 := records.flatMap Record.utf8

/-- Records as a lookup hears them: code points, and an end each. -/
def spoken (blocks : List (List Nat)) : List (Option Nat) :=
  blocks.flatMap fun b => b.map some ++ [none]

variable {f : Font} {blocks : List (List Nat)} {t g : Nat} {ws : List Nat} {c : Char}

theorem before_block (b : List Nat) (ts : List (Option Nat)) (t : Nat) :
    before (b.map some ++ none :: ts) t = if t ∈ b then 0 else before ts t + 1 := by
  induction b with
  | nil => exact before_none ts t
  | cons a b ih =>
    rw [List.map_cons, List.cons_append]
    by_cases h : a = t
    · rw [h, before_self, if_pos List.mem_cons_self]
    · rw [before_of_ne h, ih]
      simp [Ne.symm h]

theorem before_of_listed (rest : List (Option Nat))
    (h : blocks.findIdx? (·.contains t) = some g) :
    some t ∈ spoken blocks ++ rest ∧ before (spoken blocks ++ rest) t = g := by
  induction blocks generalizing g with
  | nil => exact nomatch h
  | cons b blocks ih =>
    have hcons : spoken (b :: blocks) ++ rest = b.map some ++ none :: (spoken blocks ++ rest) := by
      simp [spoken]
    rw [List.findIdx?_cons] at h
    rw [hcons, before_block]
    by_cases hb : t ∈ b
    · rw [if_pos (by simpa using hb)] at h
      cases h
      exact ⟨by simp [hb], if_pos hb⟩
    · rw [if_neg (by simpa using hb), Option.map_eq_some_iff] at h
      obtain ⟨g, hg, rfl⟩ := h
      obtain ⟨hmem, hbefore⟩ := ih hg
      exact ⟨List.mem_append_right _ (List.mem_cons_of_mem _ hmem), by rw [if_neg hb, hbefore]⟩

theorem before_of_unlisted (rest : List (Option Nat))
    (h : blocks.findIdx? (·.contains t) = none) :
    (some t ∈ spoken blocks ++ rest ↔ some t ∈ rest) ∧
      before (spoken blocks ++ rest) t = blocks.length + before rest t := by
  induction blocks with
  | nil => exact ⟨Iff.rfl, (Nat.zero_add _).symm⟩
  | cons b blocks ih =>
    have hcons : spoken (b :: blocks) ++ rest = b.map some ++ none :: (spoken blocks ++ rest) := by
      simp [spoken]
    rw [List.findIdx?_eq_none_iff] at h ih
    obtain ⟨hb, hblocks⟩ := List.forall_mem_cons.mp h
    obtain ⟨hmem, hbefore⟩ := ih hblocks
    have hb : t ∉ b := by simpa using hb
    rw [hcons, before_block, if_neg hb, hbefore, List.length_cons]
    exact ⟨by simpa [hb] using hmem, by omega⟩

theorem firstListing_eq {α : Type} (code : α → Nat) (records : List (Record α)) (c : Char) :
    firstListing code records c =
      (records.map fun r => r.direct.map code).findIdx? (·.contains c.toNat) :=
  List.findIdx?_map.symm

section Psf1

theorem words_toLE {v : Nat} (h : v < 2 ^ 16) (bytes : List UInt8) :
    words (Bytes.toLE 2 v ++ bytes) = v :: words bytes := by
  have hword : words (Bytes.toLE 2 v ++ bytes) = Bytes.ofLE (Bytes.toLE 2 v) :: words bytes := rfl
  rw [hword, Bytes.ofLE_toLE (by omega)]

theorem words_flatMap (h : ∀ v ∈ ws, v < 2 ^ 16) (bytes : List UInt8) :
    words (ws.flatMap (Bytes.toLE 2) ++ bytes) = ws ++ words bytes := by
  induction ws with
  | nil => rfl
  | cons v ws ih =>
    obtain ⟨hv, hws⟩ := List.forall_mem_cons.mp h
    rw [List.flatMap_cons, List.append_assoc, words_toLE hv, ih hws, List.cons_append]

theorem CodeUnit.lt (w : CodeUnit) : w.toNat < 2 ^ 16 := w.value.toNat_lt

theorem CodeUnit.toNat_ne (w : CodeUnit) : w.toNat ≠ 0xFFFE ∧ w.toNat ≠ 0xFFFF :=
  ⟨fun h => w.unmarked.1 (UInt16.toNat_inj.mp h), fun h => w.unmarked.2 (UInt16.toNat_inj.mp h)⟩

theorem Record.words_lt (r : Record CodeUnit) : ∀ v ∈ r.words, v < 2 ^ 16 := by
  intro v hv
  simp only [Record.words, List.mem_append, List.mem_map, List.mem_flatMap, List.mem_cons,
    List.not_mem_nil, or_false] at hv
  obtain (⟨w, -, rfl⟩ | ⟨s, -, rfl | ⟨w, -, rfl⟩⟩) | rfl := hv
  · exact w.lt
  · decide
  · exact w.lt
  · decide

theorem tokensV1_direct (us : List CodeUnit) (ws : List Nat) :
    tokensV1 false (us.map CodeUnit.toNat ++ ws) =
      (us.map CodeUnit.toNat).map some ++ tokensV1 false ws := by
  induction us with
  | nil => rfl
  | cons u us ih =>
    rw [List.map_cons, List.cons_append, tokensV1, if_neg u.toNat_ne.2, if_neg u.toNat_ne.1,
      if_neg Bool.false_ne_true, ih, List.map_cons, List.cons_append]

theorem tokensV1_skip (us : List CodeUnit) (ws : List Nat) :
    tokensV1 true (us.map CodeUnit.toNat ++ ws) = tokensV1 true ws := by
  induction us with
  | nil => rfl
  | cons u us ih =>
    rw [List.map_cons, List.cons_append, tokensV1, if_neg u.toNat_ne.2, if_neg u.toNat_ne.1,
      if_pos rfl, ih]

theorem tokensV1_sequences (seqs : List (List CodeUnit)) (inside : Bool) (ws : List Nat) :
    tokensV1 inside (seqs.flatMap (fun s => 0xFFFE :: s.map CodeUnit.toNat) ++ 0xFFFF :: ws) =
      none :: tokensV1 false ws := by
  induction seqs generalizing inside with
  | nil => rfl
  | cons s seqs ih =>
    rw [List.flatMap_cons, List.cons_append, List.cons_append, tokensV1, if_neg (by decide),
      if_pos rfl, List.append_assoc, tokensV1_skip, ih]

theorem tokensV1_table (records : List (Record CodeUnit)) (ws : List Nat) :
    tokensV1 false (records.flatMap Record.words ++ ws) =
      spoken (records.map fun r => r.direct.map CodeUnit.toNat) ++ tokensV1 false ws := by
  induction records with
  | nil => rfl
  | cons r records ih =>
    rw [List.flatMap_cons, Record.words, List.append_assoc, List.append_assoc, List.append_assoc,
      tokensV1_direct, List.singleton_append, tokensV1_sequences, ih]
    simp [spoken]

theorem unicodeLookupV1_table {records : List (Record CodeUnit)} {trailing : List UInt8}
    (hcount : f.glyphCount < 2 ^ 32)
    (htable : f.data.bytes.drop f.unicodeOffset = psf1Table records ++ trailing)
    (hlen : records.length = f.glyphCount) (c : Char) :
    f.unicodeLookupV1 c = .ok (firstListing CodeUnit.toNat records c) := by
  have hwords : ∀ v ∈ records.flatMap Record.words, v < 2 ^ 16 := by
    intro v hv
    obtain ⟨r, -, hv⟩ := List.mem_flatMap.mp hv
    exact r.words_lt v hv
  rw [unicodeLookupV1_eq f hcount, htable, psf1Table, words_flatMap hwords, tokensV1_table,
    firstListing_eq]
  cases hfirst : (records.map fun r => r.direct.map CodeUnit.toNat).findIdx?
      (·.contains c.toNat) with
  | none =>
    obtain ⟨-, hbefore⟩ := before_of_unlisted (tokensV1 false (words trailing)) hfirst
    rw [List.length_map] at hbefore
    rw [if_neg (by omega)]
  | some g =>
    obtain ⟨hmem, hbefore⟩ := before_of_listed (tokensV1 false (words trailing)) hfirst
    obtain ⟨hlt, -⟩ := List.findIdx?_eq_some_iff_getElem.mp hfirst
    rw [List.length_map] at hlt
    rw [hbefore, if_pos ⟨hmem, by omega⟩]

/-- A PSF1 lookup finds the first record of a table as prescribed, whatever follows the table, and
in any other bytes it ends too, with a glyph of the font or with none. -/
theorem unicodeLookupV1_spec (f : Font) (hcount : f.glyphCount < 2 ^ 32) :
    (∀ (records : List (Record CodeUnit)) (trailing : List UInt8),
      f.data.bytes.drop f.unicodeOffset = psf1Table records ++ trailing →
      records.length = f.glyphCount → ∀ c : Char,
        f.unicodeLookupV1 c = .ok (firstListing CodeUnit.toNat records c)) ∧
      ∀ c : Char, ∃ r, f.unicodeLookupV1 c = .ok r ∧ ∀ g, r = some g → g < f.glyphCount := by
  refine ⟨fun records trailing => unicodeLookupV1_table hcount, fun c => ?_⟩
  refine ⟨_, unicodeLookupV1_eq f hcount c, fun g hg => ?_⟩
  split at hg
  · next hlisted =>
    cases hg
    exact hlisted.2
  · exact nomatch hg

def lettered : List (Record CodeUnit) :=
  ⟨[⟨0x41, by decide⟩], [[⟨0x42, by decide⟩, ⟨0x43, by decide⟩]]⟩ :: ⟨[⟨0x42, by decide⟩], []⟩ ::
    List.replicate 254 ⟨[], []⟩

def letteredFile : Slice where
  bytes := [0x36, 0x04, 2, 0] ++ (psf1Table lettered ++ [0xFE])
  length_lt := by decide +kernel

theorem unicodeLookupV1_lettered : ∃ f, parse letteredFile = .ok (.ok f) ∧
    f.unicodeLookupV1 'B' = .ok (some 1) ∧ f.unicodeLookupV1 'C' = .ok none := by
  have hlen : letteredFile.bytes.length = 527 := by decide +kernel
  have hoffset : (psf1Font letteredFile 2 0).unicodeOffset = 4 := rfl
  have hparse : parse letteredFile = .ok (.ok (psf1Font letteredFile 2 0)) := by
    rw [parse_eq_parsePsf1 (by omega) (by decide), parsePsf1_eq rfl rfl, if_neg (by omega)]
  obtain ⟨hfound, -⟩ := unicodeLookupV1_spec (psf1Font letteredFile 2 0) (by decide)
  have hlookup := hfound lettered [0xFE] rfl (by decide +kernel)
  have hlisted : firstListing CodeUnit.toNat lettered 'B' = some 1 := by decide
  have hinside : firstListing CodeUnit.toNat lettered 'C' = none := by decide +kernel
  exact ⟨_, hparse, hlisted ▸ hlookup 'B', hinside ▸ hlookup 'C'⟩

end Psf1

section Psf2

theorem lead_ascii : ∀ a < 0x80, lead (UInt8.ofNat a) = (1, 0) ∧
    UInt8.ofNat a ≠ 0xFF ∧ (UInt8.ofNat a ^^^ 0).toNat = a := by decide

theorem lead_two : ∀ a < 0x20, lead (UInt8.ofNat (a + 0xC0)) = (2, 0xC0) ∧
    UInt8.ofNat (a + 0xC0) ≠ 0xFF ∧ (UInt8.ofNat (a + 0xC0) ^^^ 0xC0).toNat = a := by decide

theorem lead_three : ∀ a < 0x10, lead (UInt8.ofNat (a + 0xE0)) = (3, 0xE0) ∧
    UInt8.ofNat (a + 0xE0) ≠ 0xFF ∧ (UInt8.ofNat (a + 0xE0) ^^^ 0xE0).toNat = a := by decide

theorem lead_four : ∀ a < 0x08, lead (UInt8.ofNat (a + 0xF0)) = (4, 0xF0) ∧
    UInt8.ofNat (a + 0xF0) ≠ 0xFF ∧ (UInt8.ofNat (a + 0xF0) ^^^ 0xF0).toNat = a := by decide

theorem continuation_bits : ∀ a < 0x40, (UInt8.ofNat (a + 0x80) &&& 0x3F).toNat = a := by decide

theorem shift_in {cp d : Nat} (hcp : cp < 2 ^ 26) :
    cp * 2 ^ 6 % 2 ^ 32 ||| (UInt8.ofNat (d % 0x40 + 0x80) &&& 0x3F).toNat = cp * 64 + d % 64 := by
  have hd : d % 64 < 2 ^ 6 := Nat.mod_lt _ (by decide)
  rw [continuation_bits _ hd, Nat.mod_eq_of_lt (by omega), Nat.mul_comm cp,
    ← Nat.two_pow_add_eq_or_of_lt hd, Nat.mul_comm]

theorem codePoint_append {first : UInt8} {tail : List UInt8}
    (hlead : (lead first).1 = tail.length + 1) (rest : List UInt8) :
    codePoint first (tail ++ rest) = tail.foldl
      (fun cp byte => cp * 2 ^ 6 % 2 ^ 32 ||| (byte &&& 0x3F).toNat)
      (first ^^^ (lead first).2).toNat := by
  rw [codePoint, hlead, Nat.add_sub_cancel, List.take_left]

theorem utf8EncodeChar_shape (c : Char) : ∃ first tail, String.utf8EncodeChar c = first :: tail ∧
    first ≠ 0xFF ∧ (lead first).1 = tail.length + 1 ∧
      ∀ rest, codePoint first (tail ++ rest) = c.toNat := by
  have hvalid : c.toNat < 0x110000 := by
    have hvalid := c.valid
    simp only [UInt32.isValidChar, Nat.isValidChar] at hvalid
    have hnat : c.toNat = c.val.toNat := rfl
    omega
  have hnat : c.val.toNat = c.toNat := rfl
  unfold String.utf8EncodeChar
  simp only [hnat]
  split
  · next h₁ =>
    obtain ⟨hlead, hmark, hbits⟩ := lead_ascii c.toNat (by omega)
    refine ⟨_, [], rfl, hmark, by rw [hlead]; rfl, fun rest => ?_⟩
    rw [codePoint_append (by rw [hlead]; rfl), hlead]
    exact hbits
  split
  · next h₁ h₂ =>
    obtain ⟨hlead, hmark, hbits⟩ := lead_two (c.toNat / 64 % 0x20) (Nat.mod_lt _ (by decide))
    refine ⟨_, [_], rfl, hmark, by rw [hlead]; rfl, fun rest => ?_⟩
    rw [codePoint_append (by rw [hlead]; rfl), hlead]
    simp (disch := omega) only [List.foldl_cons, List.foldl_nil, hbits, shift_in]
    omega
  split
  · next h₁ h₂ h₃ =>
    obtain ⟨hlead, hmark, hbits⟩ := lead_three (c.toNat / 4096 % 0x10) (Nat.mod_lt _ (by decide))
    refine ⟨_, [_, _], rfl, hmark, by rw [hlead]; rfl, fun rest => ?_⟩
    rw [codePoint_append (by rw [hlead]; rfl), hlead]
    simp (disch := omega) only [List.foldl_cons, List.foldl_nil, hbits, shift_in]
    omega
  · next h₁ h₂ h₃ =>
    obtain ⟨hlead, hmark, hbits⟩ := lead_four (c.toNat / 262144 % 0x08) (Nat.mod_lt _ (by decide))
    refine ⟨_, [_, _, _], rfl, hmark, by rw [hlead]; rfl, fun rest => ?_⟩
    rw [codePoint_append (by rw [hlead]; rfl), hlead]
    simp (disch := omega) only [List.foldl_cons, List.foldl_nil, hbits, shift_in]
    omega

theorem decodeUtf8_encode (c : Char) (rest : List UInt8) :
    decodeUtf8 (String.utf8EncodeChar c ++ rest) =
      .ok (some (c.toNat, (String.utf8EncodeChar c).length)) := by
  obtain ⟨first, tail, hencode, -, hlead, hcode⟩ := utf8EncodeChar_shape c
  rw [hencode, List.cons_append, decodeUtf8_cons, hcode, hlead, List.length_append,
    List.length_cons, if_neg (by omega)]

theorem tokens_encode (c : Char) (rest : List UInt8) :
    tokens (String.utf8EncodeChar c ++ rest) = some c.toNat :: tokens rest := by
  obtain ⟨first, tail, hencode, hmark, hlead, hcode⟩ := utf8EncodeChar_shape c
  rw [hencode, List.cons_append, tokens, if_neg hmark, hcode, hlead, List.length_append,
    if_neg (by omega), Nat.add_sub_cancel, List.drop_left]

theorem tokens_flatMap (cs : List Char) (rest : List UInt8) :
    tokens (cs.flatMap String.utf8EncodeChar ++ rest) =
      (cs.map Char.toNat).map some ++ tokens rest := by
  induction cs with
  | nil => rfl
  | cons c cs ih =>
    rw [List.flatMap_cons, List.append_assoc, tokens_encode, ih, List.map_cons, List.map_cons,
      List.cons_append]

theorem tokens_mark (rest : List UInt8) :
    tokens (0xFE :: rest) = some '~'.toNat :: tokens rest := by
  have hlead : lead 0xFE = (1, 0x80) := by decide
  rw [tokens, if_neg (by decide), codePoint, hlead, if_neg (by simp)]
  rfl

def Record.heard (r : Record Char) : List Nat :=
  r.direct.map Char.toNat ++ r.sequences.flatMap fun s => '~'.toNat :: s.map Char.toNat

theorem tokens_sequences (seqs : List (List Char)) (rest : List UInt8) :
    tokens (seqs.flatMap (fun s => 0xFE :: s.flatMap String.utf8EncodeChar) ++ rest) =
      (seqs.flatMap fun s => '~'.toNat :: s.map Char.toNat).map some ++ tokens rest := by
  induction seqs with
  | nil => rfl
  | cons s seqs ih =>
    rw [List.flatMap_cons, List.cons_append, List.cons_append, tokens_mark, List.append_assoc,
      tokens_flatMap, ih]
    simp

theorem tokens_table (records : List (Record Char)) :
    tokens (psf2Table records) = spoken (records.map Record.heard) := by
  induction records with
  | nil => rw [psf2Table, List.flatMap_nil, tokens]; rfl
  | cons r records ih =>
    rw [psf2Table] at ih ⊢
    rw [List.flatMap_cons, Record.utf8, List.append_assoc, List.append_assoc, tokens_flatMap,
      tokens_sequences, List.singleton_append, tokens, if_pos rfl, ih]
    simp [spoken, Record.heard]

/-- Heard in a sequence, where the mark counts for a tilde. -/
def Record.InSequence (r : Record Char) (c : Char) : Prop :=
  (∃ s ∈ r.sequences, c ∈ s) ∨ c = '~' ∧ r.sequences ≠ []

/-- A record with a sequence that has `c` in it lists `c` too, or one before it does. -/
def ListedFirst (records : List (Record Char)) (c : Char) : Prop :=
  ∀ (g : Nat) (r : Record Char), records[g]? = some r → r.InSequence c →
    ∃ r' ∈ records.take (g + 1), c ∈ r'.direct

instance (r : Record Char) (c : Char) : Decidable (r.InSequence c) :=
  inferInstanceAs (Decidable (_ ∨ _))

structure Finds (f : Font) (records : List (Record Char)) (c : Char) : Prop where
  decodes : ∀ rest, decodeUtf8 (String.utf8EncodeChar c ++ rest) =
    .ok (some (c.toNat, (String.utf8EncodeChar c).length))
  found : f.unicodeLookupV2 c = .ok (firstListing Char.toNat records c)

theorem mem_map_toNat {cs : List Char} {c : Char} : c.toNat ∈ cs.map Char.toNat ↔ c ∈ cs :=
  List.mem_map_of_injective fun _ _ => Char.toNat_inj.mp

theorem Record.heard_contains (r : Record Char) (c : Char) : r.heard.contains c.toNat =
    ((r.direct.map Char.toNat).contains c.toNat || decide (r.InSequence c)) := by
  rw [Bool.eq_iff_iff]
  simp only [heard, List.contains_iff_mem, List.mem_append, Bool.or_eq_true, decide_eq_true_eq,
    mem_map_toNat]
  apply or_congr_right
  simp only [List.mem_flatMap, List.mem_cons, mem_map_toNat, InSequence, Char.toNat_inj]
  constructor
  · rintro ⟨s, hs, rfl | hc⟩
    · exact Or.inr ⟨rfl, List.ne_nil_of_mem hs⟩
    · exact Or.inl ⟨s, hs, hc⟩
  · rintro (⟨s, hs, hc⟩ | ⟨rfl, hseqs⟩)
    · exact ⟨s, hs, Or.inr hc⟩
    · obtain ⟨s, hs⟩ := List.exists_mem_of_ne_nil _ hseqs
      exact ⟨s, hs, Or.inl rfl⟩

theorem unicodeLookupV2_table {records : List (Record Char)} (hcount : records.length < 2 ^ 32)
    (htable : f.data.bytes.drop f.unicodeOffset = psf2Table records) (c : Char) :
    f.unicodeLookupV2 c = .ok ((records.map Record.heard).findIdx? (·.contains c.toNat)) := by
  rw [unicodeLookupV2_eq, htable, tokens_table, ← List.append_nil (spoken _)]
  cases hfirst : (records.map Record.heard).findIdx? (·.contains c.toNat) with
  | none =>
    obtain ⟨hmem, hbefore⟩ := before_of_unlisted [] hfirst
    rw [List.length_map, before_nil, Nat.add_zero] at hbefore
    rw [hbefore, if_pos hcount, if_neg fun h => List.not_mem_nil (hmem.mp h)]
  | some g =>
    obtain ⟨hmem, hbefore⟩ := before_of_listed [] hfirst
    obtain ⟨hlt, -⟩ := List.findIdx?_eq_some_iff_getElem.mp hfirst
    rw [List.length_map] at hlt
    rw [hbefore, if_pos (by omega), if_pos hmem]

/-- A PSF2 lookup is right about `c` exactly if no sequence has `c` in it, or is marked by what is
read as `c`, before a record lists it. -/
theorem finds_iff {records : List (Record Char)} (hcount : records.length < 2 ^ 32)
    (htable : f.data.bytes.drop f.unicodeOffset = psf2Table records) (c : Char) :
    Finds f records c ↔ ListedFirst records c := by
  have hheard : (records.map Record.heard).findIdx? (·.contains c.toNat) = records.findIdx?
      fun r => (r.direct.map Char.toNat).contains c.toNat || decide (r.InSequence c) := by
    rw [List.findIdx?_map]
    exact congrArg (List.findIdx? · records) (funext fun r => r.heard_contains c)
  have hfound : f.unicodeLookupV2 c = .ok (firstListing Char.toNat records c) ↔
      ListedFirst records c := by
    rw [unicodeLookupV2_table hcount htable, hheard, Except.ok.injEq, firstListing,
      Lists.findIdx?_or_iff]
    simp only [decide_eq_true_eq, List.contains_iff_mem, mem_map_toNat, ListedFirst]
  exact ⟨fun h => hfound.mp h.found, fun h => ⟨decodeUtf8_encode c, hfound.mpr h⟩⟩

def accented : List (Record Char) := [⟨['E'], [['e', '\u0301']]⟩, ⟨['e'], []⟩]

def accentedFile : Slice where
  bytes := [0x72, 0xb5, 0x4a, 0x86, 0, 0, 0, 0, 32, 0, 0, 0, 1, 0, 0, 0, 2, 0, 0, 0, 1, 0, 0, 0,
    1, 0, 0, 0, 8, 0, 0, 0, 0x7E, 0x3C] ++ psf2Table accented
  length_lt := by decide

theorem finds_iff_accented : ∃ f, parse accentedFile = .ok (.ok f) ∧ Finds f accented 'E' := by
  have hparse : parse accentedFile = .ok (.ok _) := rfl
  refine ⟨_, hparse, (finds_iff (by decide) rfl 'E').mpr fun g r hr hin => ?_⟩
  match g, hr with
  | 0, hr => exact ⟨_, List.mem_cons_self, by decide⟩
  | 1, hr =>
    cases hr
    exact absurd hin (by decide)

/-- The glyph of `e` is not found behind the sequence, and the mark passes for a tilde. -/
theorem not_finds : ∃ f, parse accentedFile = .ok (.ok f) ∧ f.glyphCount = accented.length ∧
    f.data.bytes.drop f.unicodeOffset = psf2Table accented ∧
    f.unicodeLookupV2 'e' = .ok (some 0) ∧ firstListing Char.toNat accented 'e' = some 1 ∧
    f.unicodeLookupV2 '~' = .ok (some 0) ∧ firstListing Char.toNat accented '~' = none ∧
    ¬Finds f accented 'e' := by
  refine ⟨_, rfl, rfl, rfl, rfl, rfl, rfl, rfl, fun h => ?_⟩
  exact nomatch h.found

end Psf2

end FerricK.Font
