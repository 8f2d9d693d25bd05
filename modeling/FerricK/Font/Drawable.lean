import FerricK.Font.Safety

namespace FerricK.Font

open Rust

def tableV2 (data : List UInt8) : List UInt8 :=
  data.drop (word data 8 4 + word data 16 4 * word data 20 4)

def firstRecords : Nat → List (Option Nat) → List (Option Nat)
  | 0, _ | _, [] => []
  | n + 1, none :: ts => none :: firstRecords n ts
  | n + 1, some code :: ts => some code :: firstRecords (n + 1) ts

def ListedWithin (data : List UInt8) (c : Char) : Prop :=
  word data 0 2 ≠ psf1Magic → word data 12 4 % 2 = 1 →
    some c.toNat ∈ firstRecords (2 ^ 32) (tokens (tableV2 data)) →
      some c.toNat ∈ firstRecords (word data 16 4) (tokens (tableV2 data))

def Drawable (f : Font) (c : Char) : Prop :=
  ∀ g, f.glyphIndexFor c = .ok (some g) → g < f.glyphCount ∧ ∃ b, f.glyph g = .ok (some b)

variable {f : Font} {data : Slice} {c : Char} {g : Nat}

theorem mem_firstRecords {n target : Nat} {ts : List (Option Nat)} :
    some target ∈ firstRecords n ts ↔ some target ∈ ts ∧ before ts target < n := by
  induction ts generalizing n with
  | nil => cases n <;> simp [firstRecords]
  | cons t ts ih =>
    cases n with
    | zero => simp [firstRecords]
    | succ n =>
      cases t with
      | none =>
        rw [firstRecords, before_none, Nat.succ_lt_succ_iff]
        simpa using ih
      | some code =>
        rw [firstRecords]
        by_cases h : code = target
        · rw [h, before_self]
          simp
        · rw [before_of_ne h, List.mem_cons, List.mem_cons, ih]
          simp [Ne.symm h]

theorem glyphIndexFor_eq_some : f.glyphIndexFor c = .ok (some g) ↔
    f.hasUnicode = true ∧ f.unicodeLookup c = .ok (some g) ∨
      (f.hasUnicode = true → f.unicodeLookup c = .ok none) ∧ f.directIndex c = some g := by
  unfold glyphIndexFor
  cases f.hasUnicode with
  | false => simp
  | true =>
    rw [if_pos rfl]
    constructor
    · intro h
      obtain ⟨r, hr, h⟩ := bind_eq_ok.mp h
      cases r with
      | none => exact Or.inr ⟨fun _ => hr, by simpa using h⟩
      | some g' => exact Or.inl ⟨rfl, by rw [hr]; simpa using h⟩
    · rintro (⟨-, h⟩ | ⟨h, hdirect⟩)
      · rw [h]
        rfl
      · rw [h rfl, ← hdirect]
        rfl

theorem directIndex_lt (h : f.directIndex c = some g) : g < f.glyphCount := by
  unfold directIndex at h
  split at h
  · cases h
    assumption
  · cases h

theorem Laid.drawable_iff_lookup (h : Laid f) (c : Char) : Drawable f c ↔
    (f.hasUnicode = true → ∀ g, f.unicodeLookup c = .ok (some g) → g < f.glyphCount) := by
  constructor
  · intro hdraw hunicode g hg
    exact (hdraw g (glyphIndexFor_eq_some.mpr (Or.inl ⟨hunicode, hg⟩))).1
  · intro hlookup g hg
    have hlt : g < f.glyphCount := by
      obtain ⟨hunicode, hg⟩ | ⟨-, hdirect⟩ := glyphIndexFor_eq_some.mp hg
      · exact hlookup hunicode g hg
      · exact directIndex_lt hdirect
    exact ⟨hlt, _, h.glyph_eq hlt⟩

/-- The PSF1 scan stops at the last glyph's record. -/
theorem unicodeLookupV1_lt (hcount : f.glyphCount < 2 ^ 32)
    (h : f.unicodeLookupV1 c = .ok (some g)) : g < f.glyphCount := by
  rw [unicodeLookupV1_eq f hcount, Except.ok.injEq] at h
  split at h
  · next hlisted =>
    cases h
    exact hlisted.2
  · cases h

theorem unicodeLookupV2_eq_some : f.unicodeLookupV2 c = .ok (some g) ↔
    some c.toNat ∈ tokens (f.data.bytes.drop f.unicodeOffset) ∧ g < 2 ^ 32 ∧
      before (tokens (f.data.bytes.drop f.unicodeOffset)) c.toNat = g := by
  rw [unicodeLookupV2_eq]
  split
  · next hroom =>
    rw [Except.ok.injEq]
    split
    · next hlisted =>
      rw [Option.some.injEq]
      constructor
      · intro hg
        exact ⟨hlisted, hg ▸ hroom, hg⟩
      · rintro ⟨-, -, hg⟩
        exact hg
    · next hlisted => simp [hlisted]
  · next hroom =>
    constructor
    · intro hg
      cases hg
    · rintro ⟨-, hlt, hg⟩
      exact absurd (hg ▸ hlt) hroom

theorem drawable_iff (h : parse data = .ok (.ok f)) (c : Char) :
    Drawable f c ↔ ListedWithin data.bytes c := by
  rcases parse_cases h with ⟨hmagic, h₁⟩ | ⟨hmagic, h₂⟩
  · obtain ⟨-, hlaid, hversion, -⟩ := parsePsf1_cases h₁
    rw [hlaid.drawable_iff_lookup, unicodeLookup, if_pos hversion]
    exact ⟨fun _ hne => absurd hmagic hne, fun _ _ g => unicodeLookupV1_lt hlaid.count_lt⟩
  · obtain ⟨-, hlaid, hversion, -⟩ := parsePsf2_cases h₂
    obtain ⟨hfont, -⟩ := parsePsf2_font h₂
    have htable : f.data.bytes.drop f.unicodeOffset = tableV2 data.bytes := by
      rw [hfont]
      rfl
    have hcount : f.glyphCount = word data.bytes 16 4 := by rw [hfont]; rfl
    have hflag : f.hasUnicode = true ↔ word data.bytes 12 4 % 2 = 1 := by
      rw [hfont, psf2Font_hasUnicode, decide_eq_true_eq]
    rw [hlaid.drawable_iff_lookup, unicodeLookup, if_neg (by omega), hflag, ListedWithin, ← hcount]
    simp only [unicodeLookupV2_eq_some, htable, mem_firstRecords]
    constructor
    · rintro hlookup - hunicode ⟨hlisted, hroom⟩
      exact ⟨hlisted, hlookup hunicode _ ⟨hlisted, hroom, rfl⟩⟩
    · rintro hwithin hunicode g ⟨hlisted, hlt, rfl⟩
      exact (hwithin hmagic hunicode ⟨hlisted, hlt⟩).2

def listedTable : Slice :=
  ⟨[0x72, 0xb5, 0x4a, 0x86, 0, 0, 0, 0, 32, 0, 0, 0, 1, 0, 0, 0, 1, 0, 0, 0, 1, 0, 0, 0, 1, 0, 0, 0,
    8, 0, 0, 0, 0x7E, 0x41, 0xFF], by simp⟩

theorem drawable_listedTable : ∃ f, parse listedTable = .ok (.ok f) ∧
    f.glyphIndexFor 'A' = .ok (some 0) ∧ Drawable f 'A' := by
  have hparse : parse listedTable = .ok (.ok _) := rfl
  have hlookup : (psf2Font listedTable).unicodeLookupV2 'A' = .ok (some 0) := rfl
  obtain ⟨hlisted, -, hbefore⟩ := unicodeLookupV2_eq_some.mp hlookup
  refine ⟨_, hparse, rfl, (drawable_iff hparse 'A').mpr fun _ _ _ => ?_⟩
  exact mem_firstRecords.mpr ⟨hlisted, hbefore.trans_lt Nat.one_pos⟩

def overlongTable : Slice :=
  ⟨[0x72, 0xb5, 0x4a, 0x86, 0, 0, 0, 0, 32, 0, 0, 0, 1, 0, 0, 0, 1, 0, 0, 0, 1, 0, 0, 0, 1, 0, 0, 0,
    8, 0, 0, 0, 0x7E, 0xFF, 0x41], by simp⟩

theorem not_drawable : ∃ f, parse overlongTable = .ok (.ok f) ∧ f.glyphCount = 1 ∧
    f.glyphIndexFor 'A' = .ok (some 1) ∧ f.glyph 1 = .ok none ∧ ¬Drawable f 'A' := by
  refine ⟨_, rfl, rfl, rfl, rfl, fun h => ?_⟩
  exact absurd (h 1 rfl).1 (by decide)

end FerricK.Font
