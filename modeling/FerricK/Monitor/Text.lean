import FerricK.Lib.Rust
import Mathlib.Data.List.Basic

namespace FerricK

open Rust

def asBytes (s : List Char) : List UInt8 := s.flatMap String.utf8EncodeChar

def fromUtf8 (bytes : List UInt8) : Option (List Char) :=
  bytes.toByteArray.utf8Decode?.map Array.toList

structure ArrayWriter where
  buf : List UInt8
  len : Nat

namespace ArrayWriter

def new (buf : List UInt8) : ArrayWriter where
  buf := buf
  len := 0

def writeStr (w : ArrayWriter) (s : List Char) : Option ArrayWriter :=
  let bytes := asBytes s
  if w.buf.length < w.len + bytes.length then none
  else
    some {
      buf := w.buf.take w.len ++ bytes ++ w.buf.drop (w.len + bytes.length)
      len := w.len + bytes.length }

/-- `write!` hands its pieces on one by one, up to the first that fails. -/
def writeFmt (w : ArrayWriter) : List (List Char) → ArrayWriter
  | [] => w
  | piece :: pieces =>
    match w.writeStr piece with
    | none => w
    | some w => w.writeFmt pieces

def text (w : ArrayWriter) : Rust (List Char) := do
  let written ← slice w.buf 0 w.len
  expect "formatter writes ASCII only" (fromUtf8 written)

def format (buf : List UInt8) (pieces : List (List Char)) : Rust (List Char) :=
  ((new buf).writeFmt pieces).text

end ArrayWriter

def padded (width b : Nat) (n : UInt64) : List (List Char) :=
  List.replicate (width - (Nat.toDigits b n.toNat).length) ['0'] ++ [Nat.toDigits b n.toNat]

def uptimeTextLen : Nat := 32
def sizeTextLen : Nat := 24
def addressTextLen : Nat := 18

def uptimePieces (totalSeconds : UInt64) : List (List Char) :=
  padded 2 10 (totalSeconds / 3600) ++ [":".toList] ++ padded 2 10 (totalSeconds / 60 % 60) ++
    [":".toList] ++ padded 2 10 (totalSeconds % 60)

def formatUptime (totalSeconds : UInt64) (buf : Vector UInt8 uptimeTextLen) : Rust (List Char) :=
  ArrayWriter.format buf.toList (uptimePieces totalSeconds)

def kib : UInt64 := 1024
def mib : UInt64 := kib * 1024
def gib : UInt64 := mib * 1024

def sizeScale (bytes : UInt64) : Option (UInt64 × String) :=
  if gib ≤ bytes then some (gib, "GiB")
  else if mib ≤ bytes then some (mib, "MiB")
  else if kib ≤ bytes then some (kib, "KiB")
  else none

def sizePieces (bytes : UInt64) : Rust (List (List Char)) :=
  match sizeScale bytes with
  | none => return padded 0 10 bytes ++ [" B".toList]
  | some (scale, label) => do
    let tenths ← umul 64 (bytes % scale).toNat 10
    let frac ← udiv tenths scale.toNat
    return padded 0 10 (bytes / scale) ++ [".".toList] ++ padded 0 10 (.ofNat frac) ++
      [" ".toList, label.toList]

def formatSize (bytes : UInt64) (buf : Vector UInt8 sizeTextLen) : Rust (List Char) := do
  ArrayWriter.format buf.toList (← sizePieces bytes)

def addressPieces (addr : UInt64) : List (List Char) := "0x".toList :: padded 16 16 addr

def formatAddress (addr : UInt64) (buf : Vector UInt8 addressTextLen) : Rust (List Char) :=
  ArrayWriter.format buf.toList (addressPieces addr)

variable {s : List Char} {pieces : List (List Char)} {buf : List UInt8}

theorem asBytes_append (s t : List Char) : asBytes (s ++ t) = asBytes s ++ asBytes t :=
  List.flatMap_append

theorem length_asBytes (h : ∀ c ∈ s, c.val ≤ 127) : (asBytes s).length = s.length := by
  induction s with
  | nil => rfl
  | cons c s ih =>
    obtain ⟨hc, hs⟩ := List.forall_mem_cons.mp h
    rw [asBytes, List.flatMap_cons, List.length_append, ← asBytes, ih hs, List.length_cons,
      String.length_utf8EncodeChar, Char.utf8Size_eq_one_iff.mpr hc, Nat.add_comm]

theorem fromUtf8_asBytes (s : List Char) : fromUtf8 (asBytes s) = some s := by
  have hencode : (asBytes s).toByteArray = s.utf8Encode := rfl
  rw [fromUtf8, hencode, List.utf8Decode?_utf8Encode]
  rfl

theorem asBytes_of_fromUtf8 {bytes : List UInt8} (h : fromUtf8 bytes = some s) :
    asBytes s = bytes := by
  have hsome : bytes.toByteArray.utf8Decode?.isSome := by
    rw [fromUtf8] at h
    exact Option.isSome_of_mem (Option.map_eq_some_iff.mp h).choose_spec.1
  obtain ⟨l, hl⟩ := ByteArray.isSome_utf8Decode?_iff.mp hsome
  have hbytes : bytes = asBytes l := by
    have hdata := congrArg (fun b => b.data.toList) hl
    simpa [List.utf8Encode, asBytes] using hdata
  rw [hbytes, fromUtf8_asBytes] at h
  rw [hbytes, Option.some.inj h]

theorem asBytes_prefix_iff {t : List Char} : asBytes s <+: asBytes t ↔ s <+: t := by
  constructor
  · intro h
    induction s generalizing t with
    | nil => exact List.nil_prefix
    | cons c s ih =>
      obtain ⟨rest, hrest⟩ := h
      have hs : asBytes (c :: s) = String.utf8EncodeChar c ++ asBytes s := List.flatMap_cons
      rw [hs, List.append_assoc] at hrest
      cases t with
      | nil =>
        have hnil := (List.append_eq_nil_iff.mp hrest).1
        exact absurd hnil String.utf8EncodeChar_ne_nil
      | cons d t =>
        have hd : ((d :: t).utf8Encode).utf8DecodeChar? 0 = some d :=
          List.utf8DecodeChar?_utf8Encode_cons
        have hc : ((d :: t).utf8Encode).utf8DecodeChar? 0 = some c := by
          rw [List.utf8Encode, ← asBytes, ← hrest, List.toByteArray_append]
          exact ByteArray.utf8DecodeChar?_utf8EncodeChar_append
        obtain rfl : c = d := Option.some.inj (hc.symm.trans hd)
        have ht : asBytes (c :: t) = String.utf8EncodeChar c ++ asBytes t := List.flatMap_cons
        rw [ht] at hrest
        exact List.prefix_cons_inj c |>.mpr (ih ⟨rest, List.append_cancel_left hrest⟩)
  · rintro ⟨rest, rfl⟩
    exact ⟨asBytes rest, (asBytes_append s rest).symm⟩

namespace ArrayWriter

variable {w : ArrayWriter}

structure Holds (w : ArrayWriter) (s : List Char) : Prop where
  len_le : w.len ≤ w.buf.length
  take : w.buf.take w.len = asBytes s

theorem Holds.new (buf : List UInt8) : (new buf).Holds [] where
  len_le := Nat.zero_le _
  take := List.take_zero

theorem Holds.text (h : w.Holds s) : w.text = .ok s := by
  rw [ArrayWriter.text, slice_of_le ⟨Nat.zero_le _, h.len_le⟩, ok_bind, List.drop_zero,
    Nat.sub_zero, h.take, fromUtf8_asBytes]
  rfl

theorem Holds.length_asBytes (h : w.Holds s) : (asBytes s).length = w.len := by
  rw [← h.take, List.length_take, Nat.min_eq_left h.len_le]

theorem Holds.writeStr {piece : List Char} (h : w.Holds s)
    (hle : (asBytes (s ++ piece)).length ≤ w.buf.length) :
    ∃ w', w.writeStr piece = some w' ∧ w'.Holds (s ++ piece) ∧
      w'.buf.length = w.buf.length := by
  rw [asBytes_append, List.length_append, h.length_asBytes] at hle
  have hlen : (w.buf.take w.len ++ asBytes piece).length = w.len + (asBytes piece).length := by
    rw [List.length_append, List.length_take, Nat.min_eq_left h.len_le]
  refine ⟨_, if_neg (Nat.not_lt.mpr hle), ⟨?_, ?_⟩, ?_⟩
  · rw [List.length_append, hlen]
    exact Nat.le_add_right _ _
  · rw [List.take_left' hlen, h.take, asBytes_append]
  · rw [List.length_append, hlen, List.length_drop, Nat.add_sub_cancel' hle]

theorem Holds.writeFmt (h : w.Holds s)
    (hle : (asBytes (s ++ pieces.flatten)).length ≤ w.buf.length) :
    (w.writeFmt pieces).Holds (s ++ pieces.flatten) := by
  induction pieces generalizing w s with
  | nil =>
    rw [List.flatten_nil, List.append_nil]
    exact h
  | cons piece pieces ih =>
    rw [List.flatten_cons, ← List.append_assoc] at hle ⊢
    have hpiece : (asBytes (s ++ piece)).length ≤ w.buf.length := by
      rw [asBytes_append, List.length_append] at hle
      omega
    obtain ⟨w', hwrite, hholds, hlen⟩ := h.writeStr hpiece
    rw [ArrayWriter.writeFmt, hwrite]
    exact ih hholds (hlen ▸ hle)

theorem format_of_le (hle : (asBytes pieces.flatten).length ≤ buf.length) :
    format buf pieces = .ok pieces.flatten :=
  ((Holds.new buf).writeFmt hle).text

end ArrayWriter

end FerricK
