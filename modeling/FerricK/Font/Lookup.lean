import FerricK.Font.Defs
import Mathlib.Data.List.TakeWhile

namespace FerricK.Font

open Rust

def codePoint (first : UInt8) (rest : List UInt8) : Nat :=
  (rest.take ((lead first).1 - 1)).foldl
    (fun cp byte => cp * 2 ^ 6 % 2 ^ 32 ||| (byte &&& 0x3F).toNat) (first ^^^ (lead first).2).toNat

/-- What a PSF2 unicode table says: code points, and `none` where a glyph's record ends. -/
def tokens : List UInt8 → List (Option Nat)
  | [] => []
  | first :: rest =>
    if first = 0xFF then none :: tokens rest
    else if rest.length + 1 < (lead first).1 then []
    else some (codePoint first rest) :: tokens (rest.drop ((lead first).1 - 1))
termination_by bytes => bytes.length

def words : List UInt8 → List Nat
  | a :: b :: bytes => Bytes.ofLE [a, b] :: words bytes
  | _ => []

/-- What a PSF1 unicode table says, from outside a sequence or from inside one. -/
def tokensV1 : Bool → List Nat → List (Option Nat)
  | _, [] => []
  | inside, w :: ws =>
    if w = 0xFFFF then none :: tokensV1 false ws
    else if w = 0xFFFE then tokensV1 true ws
    else if inside then tokensV1 true ws
    else some w :: tokensV1 false ws

def before (ts : List (Option Nat)) (target : Nat) : Nat :=
  (ts.takeWhile (· ≠ some target)).count none

def Countable (table : List UInt8) (target : Nat) : Prop :=
  ((tokens table).takeWhile (· ≠ some target)).count none < 2 ^ 32

variable {bytes rest : List UInt8} {first : UInt8} {pos glyph target glyphCount fuel : Nat}

theorem lead_pos (first : UInt8) : 1 ≤ (lead first).1 := by
  unfold lead
  split_ifs <;> simp

theorem decodeUtf8_cons (first : UInt8) (rest : List UInt8) :
    decodeUtf8 (first :: rest) = .ok (if rest.length + 1 < (lead first).1 then none
      else some (codePoint first rest, (lead first).1)) := by
  have hpos := lead_pos first
  rw [decodeUtf8]
  simp only [List.length_cons]
  split
  · rfl
  · rw [slice_of_le (by simp only [List.length_cons]; omega)]
    rfl

theorem u16le_slice (h : pos + 2 ≤ bytes.length) :
    slice bytes pos (pos + 2) >>= u16le = .ok (Bytes.ofLE ((bytes.drop pos).take 2)) := by
  rw [slice_of_le (by omega), ok_bind, Nat.add_sub_cancel_left, u16le_eq]
  · rw [List.take_take, Nat.min_self]
  · simp only [List.length_take, List.length_drop]
    omega

theorem words_drop (h : pos + 2 ≤ bytes.length) : words (bytes.drop pos) =
    Bytes.ofLE ((bytes.drop pos).take 2) :: words (bytes.drop (pos + 2)) := by
  rw [← List.drop_drop]
  match hdrop : bytes.drop pos with
  | [] | [_] =>
    have hlen := congrArg List.length hdrop
    simp only [List.length_drop, List.length_nil, List.length_singleton] at hlen
    omega
  | a :: b :: rest => rfl

theorem words_eq_nil (h : ¬pos + 2 ≤ bytes.length) : words (bytes.drop pos) = [] := by
  match hdrop : bytes.drop pos with
  | [] | [_] => rfl
  | a :: b :: rest =>
    have hlen := congrArg List.length hdrop
    simp only [List.length_drop, List.length_cons] at hlen
    omega

theorem skipSequence_eq (hlen : bytes.length < 2 ^ 63) (hpos : pos ≤ bytes.length)
    (hfuel : bytes.length - pos < fuel) :
    ∃ p, skipSequence bytes fuel pos = .ok p ∧ pos ≤ p ∧ p ≤ bytes.length ∧
      tokensV1 false (words (bytes.drop p)) = tokensV1 true (words (bytes.drop pos)) := by
  induction fuel generalizing pos with
  | zero => omega
  | succ fuel ih =>
    rw [skipSequence, uadd_of_lt (by omega), ok_bind]
    split
    · next hnext =>
      obtain ⟨w, hw, h⟩ := bind_eq_ok.mp (u16le_slice hnext)
      rw [hw, ok_bind, h, ok_bind]
      split
      · next hmark =>
        refine ⟨pos, by rw [usub_of_le (by omega), Nat.add_sub_cancel], le_rfl, hpos, ?_⟩
        rw [words_drop hnext, tokensV1, tokensV1]
        obtain hmark | hmark := hmark <;> simp [hmark]
      · next hmark =>
        obtain ⟨p, hp, hle, hlt, htokens⟩ := ih hnext (by omega)
        refine ⟨p, hp, by omega, hlt, ?_⟩
        rw [htokens, words_drop hnext, tokensV1, if_neg (by tauto), if_neg (by tauto), if_pos rfl]
    · next hout =>
      exact ⟨pos, rfl, le_rfl, hpos, by rw [words_eq_nil hout]; rfl⟩

theorem before_nil (target : Nat) : before [] target = 0 := rfl

theorem before_none (ts : List (Option Nat)) (target : Nat) :
    before (none :: ts) target = before ts target + 1 := by
  rw [before, List.takeWhile_cons_of_pos (by simp), List.count_cons_self, before]

theorem before_self (ts : List (Option Nat)) (target : Nat) :
    before (some target :: ts) target = 0 := by
  rw [before, List.takeWhile_cons_of_neg (by simp), List.count_nil]

theorem before_of_ne {code : Nat} (h : code ≠ target) (ts : List (Option Nat)) :
    before (some code :: ts) target = before ts target := by
  rw [before, List.takeWhile_cons_of_pos (by simpa using h), List.count_cons_of_ne (by simp),
    before]

theorem lookupV1Loop_eq (hlen : bytes.length < 2 ^ 63) (hcount : glyphCount < 2 ^ 32)
    (hpos : pos ≤ bytes.length) (hfuel : bytes.length - pos < fuel) :
    lookupV1Loop bytes target glyphCount fuel pos glyph =
      .ok (if some target ∈ tokensV1 false (words (bytes.drop pos)) ∧
          glyph + before (tokensV1 false (words (bytes.drop pos))) target < glyphCount then
        some (glyph + before (tokensV1 false (words (bytes.drop pos))) target) else none) := by
  induction fuel generalizing pos glyph with
  | zero => omega
  | succ fuel ih =>
    rw [lookupV1Loop]
    split
    · next hglyph =>
      rw [uadd_of_lt (by omega), ok_bind]
      split
      · next hnext =>
        obtain ⟨w, hw, h⟩ := bind_eq_ok.mp (u16le_slice hnext)
        rw [hw, ok_bind, h, ok_bind, words_drop hnext, tokensV1]
        split
        · rw [uadd_of_lt (by omega), ok_bind, ih hnext (by omega), before_none, Nat.add_assoc,
            Nat.add_comm 1]
          simp
        split
        · obtain ⟨p, hp, hle, hlt, htokens⟩ := skipSequence_eq hlen hnext (show _ < fuel by omega)
          rw [hp, ok_bind, ih hlt (by omega), htokens]
        rw [if_neg Bool.false_ne_true]
        split
        · next heq =>
          rw [heq, before_self, if_pos ⟨List.mem_cons_self, hglyph⟩, Nat.add_zero, pure_eq_ok]
        · next hne =>
          rw [ih hnext (by omega), before_of_ne hne]
          simp [Ne.symm hne]
      · next hout =>
        rw [words_eq_nil hout]
        simp [tokensV1]
    · next hout => rw [if_neg (by omega), pure_eq_ok]

theorem lookupV2Loop_eq (hlen : bytes.length < 2 ^ 63) (hpos : pos ≤ bytes.length)
    (hfuel : bytes.length - pos < fuel) (hglyph : glyph < 2 ^ 32) :
    lookupV2Loop bytes target fuel pos glyph =
      if glyph + before (tokens (bytes.drop pos)) target < 2 ^ 32 then
        .ok (if some target ∈ tokens (bytes.drop pos) then
          some (glyph + before (tokens (bytes.drop pos)) target) else none)
      else .error .overflow := by
  induction fuel generalizing pos glyph with
  | zero => omega
  | succ fuel ih =>
    rw [lookupV2Loop]
    split
    · next hin =>
      have hdrop := List.drop_eq_getElem_cons hin
      rw [index_of_lt hin, ok_bind, hdrop, tokens]
      split
      · next hend =>
        rw [uadd_of_lt (by omega), ok_bind, before_none]
        by_cases hroom : glyph + 1 < 2 ^ 32
        · rw [uadd_of_lt hroom, ok_bind, ih (by omega) (by omega) hroom, Nat.add_assoc,
            Nat.add_comm 1]
          simp
        · rw [uadd, if_neg hroom, if_neg (by omega), error_bind]
      · next hend =>
        have hslice : slice bytes pos bytes.length = .ok (bytes.drop pos) := by
          rw [slice_of_le (by omega), List.take_of_length_le (by simp)]
        rw [hslice, ok_bind, hdrop, decodeUtf8_cons, ok_bind]
        by_cases hshort : (bytes.drop (pos + 1)).length + 1 < (lead bytes[pos]).1
        · simp only [if_pos hshort, before_nil, Nat.add_zero, if_pos hglyph, List.not_mem_nil,
            if_false, pure_eq_ok]
        · have hlead := lead_pos bytes[pos]
          have hnext : pos + (lead bytes[pos]).1 ≤ bytes.length := by
            simp only [List.length_drop] at hshort
            omega
          simp only [if_neg hshort]
          rw [uadd_of_lt (by omega), ok_bind]
          by_cases hcp : codePoint bytes[pos] (bytes.drop (pos + 1)) = target
          · rw [if_pos hcp, hcp, before_self, Nat.add_zero, if_pos hglyph,
              if_pos List.mem_cons_self, pure_eq_ok]
          · rw [if_neg hcp, ih hnext (by omega) hglyph, before_of_ne hcp, List.drop_drop,
              show pos + 1 + ((lead bytes[pos]).1 - 1) = pos + (lead bytes[pos]).1 by omega]
            simp [Ne.symm hcp]
    · next hout =>
      rw [List.drop_of_length_le (by omega), tokens, before_nil, Nat.add_zero, if_pos hglyph]
      simp

end FerricK.Font
