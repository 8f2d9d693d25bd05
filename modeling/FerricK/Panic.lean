import FerricK.Monitor.Text

namespace FerricK

open Rust

structure PanicBuf where
  buf : List UInt8
  len : Nat

def panicBufCap : Nat := 512

namespace PanicBuf

def new (buf : List UInt8) : PanicBuf where
  buf := buf
  len := 0

/-- `self.len + bytes.len()` fits: no string has `2 ^ 63` bytes. -/
def writeStr (w : PanicBuf) (s : List Char) : Rust (Option PanicBuf) := do
  let bytes := asBytes s
  let stop := w.len + bytes.length
  if stop > w.buf.length then return none
  else do
    let _ ← slice w.buf w.len stop
    return some { buf := w.buf.take w.len ++ bytes ++ w.buf.drop stop, len := stop }

/-- `let _ = writeln!(..)`: the pieces one by one, up to the first that fails. -/
def writeFmt (w : PanicBuf) : List (List Char) → Rust PanicBuf
  | [] => return w
  | piece :: pieces => do
    match ← w.writeStr piece with
    | none => return w
    | some w => w.writeFmt pieces

def intoStr (w : PanicBuf) : Rust (List Char) := do
  expect "panic buffer holds only UTF-8" (fromUtf8 (← slice w.buf 0 w.len))

end PanicBuf

def panicHeader : List Char := "KERNEL PANIC\n".toList

/-- The message of `panic`, whose second `writeln!` hands on `pieces`. -/
def panicText (pieces : List (List Char)) : Rust (List Char) := do
  let w ← (PanicBuf.new (List.replicate panicBufCap 0)).writeFmt [panicHeader]
  let w ← w.writeFmt pieces
  w.intoStr

/-- The format strings are `"{}:{}: {}\n"` and `"{}\n"`. -/
def panicPieces (location : Option (List Char × UInt32)) (message : List (List Char)) :
    List (List Char) :=
  match location with
  | some (file, line) =>
    [file, [':'], Nat.toDigits 10 line.toNat, [':', ' ']] ++ message ++ [['\n']]
  | none => message ++ [['\n']]

def panic (location : Option (List Char × UInt32)) (message : List (List Char)) :
    Rust (List Char) := panicText (panicPieces location message)

/-- `text` is the header and the first `n` pieces, whole, and no more of them fit. -/
structure Collected (pieces : List (List Char)) (text : List Char) (n : Nat) : Prop where
  le : n ≤ pieces.length
  text_eq : text = panicHeader ++ (pieces.take n).flatten
  fits : (asBytes text).length ≤ panicBufCap
  longest : ∀ m ≤ pieces.length,
    (asBytes (panicHeader ++ (pieces.take m).flatten)).length ≤ panicBufCap → m ≤ n

namespace PanicBuf

structure Holds (w : PanicBuf) (s : List Char) : Prop where
  size : w.buf.length = panicBufCap
  len : w.len = (asBytes s).length
  fits : (asBytes s).length ≤ panicBufCap
  take : w.buf.take w.len = asBytes s

variable {w : PanicBuf} {s piece : List Char} {pieces : List (List Char)}

theorem Holds.new : (new (List.replicate panicBufCap 0)).Holds [] where
  size := List.length_replicate
  len := rfl
  fits := Nat.zero_le _
  take := rfl

theorem Holds.writeStr_none (h : w.Holds s) (hover : panicBufCap < (asBytes (s ++ piece)).length) :
    w.writeStr piece = .ok none := by
  rw [asBytes_append, List.length_append] at hover
  rw [writeStr, h.size, h.len, if_pos hover, pure_eq_ok]

theorem Holds.writeStr_some (h : w.Holds s) (hfits : (asBytes (s ++ piece)).length ≤ panicBufCap) :
    ∃ w', w.writeStr piece = .ok (some w') ∧ w'.Holds (s ++ piece) := by
  have hle := hfits
  rw [asBytes_append, List.length_append, ← h.len] at hle
  have htake : (w.buf.take w.len ++ asBytes piece).length = w.len + (asBytes piece).length := by
    rw [h.take, List.length_append, h.len]
  have hsize := h.size
  have hwrite : w.writeStr piece = .ok (some {
      buf := w.buf.take w.len ++ asBytes piece ++ w.buf.drop (w.len + (asBytes piece).length)
      len := w.len + (asBytes piece).length }) := by
    rw [writeStr, if_neg (by omega), slice_of_le ⟨by omega, by omega⟩, ok_bind, pure_eq_ok]
  refine ⟨_, hwrite, ⟨?_, ?_, hfits, ?_⟩⟩
  · rw [List.length_append, htake, List.length_drop]
    omega
  · rw [asBytes_append, List.length_append, h.len]
  · rw [List.take_left' htake, h.take, asBytes_append]

/-- After the first piece that does not fit nothing is written, and no longer run fits either. -/
theorem Holds.writeFmt (h : w.Holds s) (pieces : List (List Char)) :
    ∃ w' n, w.writeFmt pieces = .ok w' ∧ w'.Holds (s ++ (pieces.take n).flatten) ∧
      n ≤ pieces.length ∧ ∀ m ≤ pieces.length,
        (asBytes (s ++ (pieces.take m).flatten)).length ≤ panicBufCap → m ≤ n := by
  induction pieces generalizing w s with
  | nil =>
    refine ⟨w, 0, rfl, ?_, Nat.le_refl 0, fun m hm _ => hm⟩
    rw [List.take_nil, List.flatten_nil, List.append_nil]
    exact h
  | cons piece pieces ih =>
    by_cases hfits : (asBytes (s ++ piece)).length ≤ panicBufCap
    · obtain ⟨w₁, hwrite, h₁⟩ := h.writeStr_some hfits
      obtain ⟨w', n, hrest, h', hn, hlongest⟩ := ih h₁
      refine ⟨w', n + 1, ?_, ?_, Nat.succ_le_succ hn, ?_⟩
      · rw [PanicBuf.writeFmt, hwrite, ok_bind]
        exact hrest
      · rw [List.take_succ_cons, List.flatten_cons, ← List.append_assoc]
        exact h'
      · intro m hm hfit
        cases m with
        | zero => exact Nat.zero_le _
        | succ m =>
          rw [List.take_succ_cons, List.flatten_cons, ← List.append_assoc] at hfit
          exact Nat.succ_le_succ (hlongest m (Nat.le_of_succ_le_succ hm) hfit)
    · refine ⟨w, 0, ?_, ?_, Nat.zero_le _, ?_⟩
      · rw [PanicBuf.writeFmt, h.writeStr_none (Nat.lt_of_not_le hfits), ok_bind, pure_eq_ok]
      · rw [List.take_zero, List.flatten_nil, List.append_nil]
        exact h
      · intro m _ hfit
        cases m with
        | zero => exact Nat.le_refl 0
        | succ m =>
          rw [List.take_succ_cons, List.flatten_cons, ← List.append_assoc, asBytes_append,
            List.length_append] at hfit
          exact absurd (Nat.le_trans (Nat.le_add_right _ _) hfit) hfits

theorem Holds.intoStr (h : w.Holds s) : w.intoStr = .ok s := by
  have hle : w.len ≤ w.buf.length := by
    rw [h.len, h.size]
    exact h.fits
  rw [PanicBuf.intoStr, slice_of_le ⟨Nat.zero_le _, hle⟩, ok_bind, List.drop_zero, Nat.sub_zero,
    h.take, fromUtf8_asBytes, expect_some]

end PanicBuf

theorem panicText_collected (pieces : List (List Char)) :
    ∃ text n, panicText pieces = .ok text ∧ Collected pieces text n := by
  have hheader : (asBytes ([] ++ panicHeader)).length ≤ panicBufCap := by decide
  obtain ⟨w₁, hwrite, h₁⟩ := PanicBuf.Holds.new.writeStr_some hheader
  obtain ⟨w, n, hrest, h, hn, hlongest⟩ := h₁.writeFmt pieces
  have hfirst : (PanicBuf.new (List.replicate panicBufCap 0)).writeFmt [panicHeader] = .ok w₁ := by
    rw [PanicBuf.writeFmt, hwrite, ok_bind]
    rfl
  refine ⟨_, n, ?_, ⟨hn, rfl, h.fits, hlongest⟩⟩
  rw [panicText, hfirst, ok_bind, hrest, ok_bind, h.intoStr, List.nil_append]

theorem panic_text_whole :
    (∀ pieces, ∃ text n, panicText pieces = .ok text ∧ Collected pieces text n) ∧
    ∀ location message, ∃ text n, panic location message = .ok text ∧
      Collected (panicPieces location message) text n :=
  ⟨panicText_collected, fun location message => panicText_collected (panicPieces location message)⟩

end FerricK
