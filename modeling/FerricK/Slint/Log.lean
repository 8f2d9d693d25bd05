import FerricK.Monitor.Text

namespace FerricK

open Rust

structure SerialFmt where
  buf : List UInt8
  len : Nat

def logLen : Nat := 512

namespace SerialFmt

def new (size : Nat) : SerialFmt where
  buf := List.replicate size 0
  len := 0

/-- `self.len + s.len()` fits: no string has `2 ^ 63` bytes. -/
def writeStr (w : SerialFmt) (s : List Char) : Rust SerialFmt := do
  let bytes := asBytes s
  let stop := min w.buf.length (w.len + bytes.length)
  let _ ← slice w.buf w.len stop
  let kept ← slice bytes 0 (← usub stop w.len)
  return { buf := w.buf.take w.len ++ kept ++ w.buf.drop stop, len := stop }

end SerialFmt

def mirrorToSerial (s : List UInt8) : List Char := (fromUtf8 s).getD []

/-- No piece fails, so `fmt::write` hands on all of them. -/
def debugLog (pieces : List (List Char)) : Rust (List Char) := do
  let w ← forEach pieces (fun piece w => SerialFmt.writeStr w piece) (SerialFmt.new logLen)
  return mirrorToSerial (← slice w.buf 0 w.len)

/-- A message may lose its end, but no more than it must to fit. -/
structure Shortened (message text : List Char) : Prop where
  kept : text <+: message
  longest : ∀ p, p <+: message → (asBytes p).length ≤ logLen → p <+: text

variable {s p : List Char} {pieces : List (List Char)}

namespace SerialFmt

structure Holds (w : SerialFmt) (s : List Char) : Prop where
  size : w.buf.length = logLen
  len : w.len = min logLen (asBytes s).length
  take : w.buf.take w.len = (asBytes s).take logLen

variable {w : SerialFmt}

theorem Holds.new : (new logLen).Holds [] where
  size := List.length_replicate
  len := rfl
  take := rfl

theorem Holds.writeStr (h : w.Holds s) (piece : List Char) :
    ∃ w', w.writeStr piece = .ok w' ∧ w'.Holds (s ++ piece) := by
  have hlen := h.len
  have hsize := h.size
  rw [SerialFmt.writeStr, hsize]
  set stop := min logLen (w.len + (asBytes piece).length) with hstop
  have hkept : stop - w.len = min (logLen - (asBytes s).length) (asBytes piece).length := by
    omega
  have hsum : stop = min logLen ((asBytes s).length + (asBytes piece).length) := by omega
  have hslice : stop - w.len ≤ (asBytes piece).length := by omega
  rw [slice_of_le ⟨by omega, by omega⟩, ok_bind, usub_of_le (by omega), ok_bind,
    slice_of_le ⟨Nat.zero_le _, hslice⟩, ok_bind, List.drop_zero, Nat.sub_zero]
  have htake : (w.buf.take w.len ++ (asBytes piece).take (stop - w.len)).length = stop := by
    rw [List.length_append, List.length_take, List.length_take]
    omega
  refine ⟨_, rfl, ⟨?_, ?_, ?_⟩⟩
  · rw [List.length_append, htake, List.length_drop]
    omega
  · rw [asBytes_append, List.length_append]
    exact hsum
  · rw [List.take_left' htake, h.take, asBytes_append, List.take_append, hkept,
      ← List.take_eq_take_min]

theorem Holds.writeAll (h : w.Holds s) (pieces : List (List Char)) :
    ∃ w', forEach pieces (fun piece w => w.writeStr piece) w = .ok w' ∧
      w'.Holds (s ++ pieces.flatten) := by
  induction pieces generalizing w s with
  | nil =>
    rw [List.flatten_nil, List.append_nil]
    exact ⟨w, rfl, h⟩
  | cons piece pieces ih =>
    obtain ⟨w₁, hwrite, h₁⟩ := h.writeStr piece
    obtain ⟨w', hrest, h'⟩ := ih h₁
    rw [List.flatten_cons, ← List.append_assoc]
    exact ⟨w', by rw [forEach_cons, hwrite, ok_bind, hrest], h'⟩

end SerialFmt

/-- The cut is between bytes, wherever the pieces end. -/
theorem debugLog_eq (pieces : List (List Char)) :
    debugLog pieces = .ok (mirrorToSerial ((asBytes pieces.flatten).take logLen)) := by
  obtain ⟨w, hwrite, h⟩ := SerialFmt.Holds.new.writeAll pieces
  rw [List.nil_append] at h
  have hle : w.len ≤ w.buf.length := by
    rw [h.len, h.size]
    exact Nat.min_le_left _ _
  rw [debugLog, hwrite, ok_bind, slice_of_le ⟨Nat.zero_le _, hle⟩, ok_bind, List.drop_zero,
    Nat.sub_zero, h.take]
  rfl

theorem shortened_of_take (h : asBytes p = (asBytes s).take logLen) :
    Shortened s (mirrorToSerial ((asBytes s).take logLen)) := by
  rw [← h, mirrorToSerial, fromUtf8_asBytes, Option.getD_some]
  refine ⟨asBytes_prefix_iff.mp (h ▸ List.take_prefix _ _), fun q hq hle => ?_⟩
  rw [← asBytes_prefix_iff, h, List.prefix_take_iff]
  exact ⟨asBytes_prefix_iff.mpr hq, hle⟩

theorem mirrorToSerial_of_not_boundary (h : ¬ ∃ p, p <+: s ∧ (asBytes p).length = logLen)
    (hlong : logLen < (asBytes s).length) :
    mirrorToSerial ((asBytes s).take logLen) = [] := by
  cases hdecode : fromUtf8 ((asBytes s).take logLen) with
  | none => rw [mirrorToSerial, hdecode, Option.getD_none]
  | some p =>
    have hp := asBytes_of_fromUtf8 hdecode
    refine absurd ⟨p, asBytes_prefix_iff.mp (hp ▸ List.take_prefix _ _), ?_⟩ h
    rw [hp, List.length_take_of_le (Nat.le_of_lt hlong)]

theorem not_shortened_nil (hlong : logLen < (asBytes s).length) : ¬ Shortened s [] := by
  intro h
  cases s with
  | nil => exact absurd hlong (by decide)
  | cons c s =>
    have hfits : (asBytes [c]).length ≤ logLen := by
      rw [asBytes, List.flatMap_singleton, String.length_utf8EncodeChar]
      exact Nat.le_trans (Char.utf8Size_le_four c) (by decide)
    have hnil := h.longest [c] (List.prefix_append [c] s) hfits
    exact List.cons_ne_nil c [] (List.prefix_nil.mp hnil)

/-- Only a message that has a character across the buffer's end is lost. -/
theorem debug_log_shortens_iff (pieces : List (List Char)) :
    (∃ text, debugLog pieces = .ok text ∧ Shortened pieces.flatten text) ↔
      (asBytes pieces.flatten).length ≤ logLen ∨
        ∃ p, p <+: pieces.flatten ∧ (asBytes p).length = logLen := by
  rw [debugLog_eq]
  constructor
  · rintro ⟨text, htext, hshort⟩
    cases htext
    by_contra! ⟨hlong, hcut⟩
    rw [mirrorToSerial_of_not_boundary (by simpa using hcut) hlong] at hshort
    exact not_shortened_nil hlong hshort
  · rintro (hle | ⟨p, hp, hlen⟩)
    · exact ⟨_, rfl, shortened_of_take (List.take_of_length_le hle).symm⟩
    · refine ⟨_, rfl, shortened_of_take (p := p) ?_⟩
      rw [← hlen]
      exact List.prefix_iff_eq_take.mp (asBytes_prefix_iff.mpr hp)

def accented : List Char := List.replicate 511 'a' ++ ['é']

theorem debug_log_drops :
    ¬ ∀ pieces, ∃ text, debugLog pieces = .ok text ∧ Shortened pieces.flatten text := by
  intro hall
  have hplain : (asBytes (List.replicate 511 'a')).length = 511 := by
    rw [length_asBytes (fun c hc => List.eq_of_mem_replicate hc ▸ by decide),
      List.length_replicate]
  have hlen : (asBytes accented).length = 513 := by
    rw [accented, asBytes_append, List.length_append, hplain]
    rfl
  have hcut : ¬ ∃ p, p <+: accented ∧ (asBytes p).length = logLen := by
    rintro ⟨p, hp, hp512⟩
    rcases List.prefix_concat_iff.mp hp with rfl | hp
    · exact absurd (hlen.symm.trans hp512) (by decide)
    · have hle := (asBytes_prefix_iff.mpr hp).length_le
      rw [hplain, hp512] at hle
      exact absurd hle (by decide)
  obtain ⟨text, htext, hshort⟩ := hall [accented]
  rw [debugLog_eq, List.flatten_singleton,
    mirrorToSerial_of_not_boundary hcut (by rw [hlen]; decide)] at htext
  cases htext
  rw [List.flatten_singleton] at hshort
  exact not_shortened_nil (by rw [hlen]; decide) hshort

end FerricK
