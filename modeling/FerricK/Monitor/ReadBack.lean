import FerricK.Lib.Numerals
import FerricK.Monitor.Text
import Mathlib.Algebra.Field.Rat
import Mathlib.Algebra.Order.Ring.Rat
import Mathlib.Tactic.Linarith

namespace FerricK

open Rust

def readUptime (text : List Char) : Option Nat :=
  match text.splitOn ':' with
  | [h, m, s] => do
    let hours ← Numeral.read 10 h
    let minutes ← Numeral.read 10 m
    let seconds ← Numeral.read 10 s
    if m.length = 2 ∧ s.length = 2 ∧ minutes < 60 ∧ seconds < 60 then
      some (hours * 3600 + minutes * 60 + seconds)
    else none
  | _ => none

def readAddress : List Char → Option Nat
  | '0' :: 'x' :: digits => Numeral.read 16 digits
  | _ => none

inductive SizeUnit
  | b
  | kib
  | mib
  | gib
  deriving DecidableEq

namespace SizeUnit

def label : SizeUnit → String
  | b => "B"
  | kib => "KiB"
  | mib => "MiB"
  | gib => "GiB"

def scale : SizeUnit → Nat
  | b => 1
  | kib => 1024
  | mib => 1024 ^ 2
  | gib => 1024 ^ 3

/-- The largest unit that does not exceed a size, or bytes. -/
structure Fits (u : SizeUnit) (bytes : Nat) : Prop where
  scale_le : u = .b ∨ u.scale ≤ bytes
  largest : ∀ v : SizeUnit, v.scale ≤ bytes → v.scale ≤ u.scale

end SizeUnit

structure Size where
  units : Nat
  tenths : Nat
  unit : SizeUnit
  deriving DecidableEq

namespace Size

def denoted (s : Size) : ℚ := (s.units + s.tenths / 10) * s.unit.scale

def read (text : List Char) : Option Size :=
  match text.splitOn ' ' with
  | [number, label] => do
    let unit ← [SizeUnit.b, .kib, .mib, .gib].find? (·.label.toList = label)
    match unit, number.splitOn '.' with
    | .b, [n] => return ⟨← Numeral.read 10 n, 0, .b⟩
    | .b, _ => none
    | unit, [q, f] =>
      if f.length = 1 then return ⟨← Numeral.read 10 q, ← Numeral.read 10 f, unit⟩ else none
    | _, _ => none
  | _ => none

/-- What is not shown is less than a tenth of the unit. -/
structure Denotes (s : Size) (bytes : Nat) : Prop where
  fits : s.unit.Fits bytes
  exact : s.unit = .b → s.denoted = bytes
  nonneg : 0 ≤ bytes - s.denoted
  lt : s.unit ≠ .b → bytes - s.denoted < s.unit.scale / 10

end Size

variable {width b : Nat} {n : UInt64} {c : Char}

theorem flatten_padded (width b : Nat) (n : UInt64) :
    (padded width b n).flatten = List.leftpad width '0' (Nat.toDigits b n.toNat) := by
  rw [padded, List.flatten_append, List.flatten_replicate_singleton, List.flatten_singleton]
  rfl

theorem not_mem_flatten_padded (hpos : 1 < b) (hb : b ≤ 16) (hc : Numeral.digit c = none) :
    c ∉ (padded width b n).flatten := by
  intro h
  rw [flatten_padded] at h
  have hdigit := Numeral.isSome_digit_of_mem_leftpad hpos hb h
  rw [hc] at hdigit
  cases hdigit

theorem read_flatten_padded (hpos : 1 < b) (hb : b ≤ 16) (width : Nat) (n : UInt64) :
    Numeral.read b (padded width b n).flatten = some n.toNat := by
  rw [flatten_padded, Numeral.read_leftpad_toDigits hpos hb]

theorem length_flatten_padded (hpos : 1 < b) (hwidth : 0 < width) (hn : n.toNat < b ^ width) :
    (padded width b n).flatten.length = width := by
  rw [flatten_padded, Numeral.length_leftpad_toDigits hpos hwidth hn]

theorem length_asBytes_padded_le {k : Nat} (hpos : 1 < b) (hb : b ≤ 16) (hwidth : width ≤ k)
    (hk : 0 < k) (hn : n.toNat < b ^ k) : (asBytes (padded width b n).flatten).length ≤ k := by
  rw [flatten_padded, length_asBytes, List.length_leftpad]
  · exact Nat.max_le.mpr ⟨hwidth, (Nat.length_toDigits_le_iff hpos hk).mpr hn⟩
  · intro c hc
    exact Numeral.val_le_of_isSome_digit (Numeral.isSome_digit_of_mem_leftpad hpos hb hc)

theorem flatten_uptimePieces (t : UInt64) : (uptimePieces t).flatten =
    [':'].intercalate [(padded 2 10 (t / 3600)).flatten, (padded 2 10 (t / 60 % 60)).flatten,
      (padded 2 10 (t % 60)).flatten] := by
  simp [uptimePieces, List.intercalate]

theorem readUptime_uptimePieces (t : UInt64) :
    readUptime (uptimePieces t).flatten = some t.toNat := by
  have hcolon : ∀ n, ':' ∉ (padded 2 10 n).flatten := fun n =>
    not_mem_flatten_padded (by decide) (by decide) rfl
  have hsplit : (uptimePieces t).flatten.splitOn ':' = [(padded 2 10 (t / 3600)).flatten,
      (padded 2 10 (t / 60 % 60)).flatten, (padded 2 10 (t % 60)).flatten] := by
    rw [flatten_uptimePieces, List.splitOn_intercalate _ _ (List.cons_ne_nil _ _)]
    simp only [List.forall_mem_cons]
    exact ⟨hcolon _, hcolon _, hcolon _, fun _ h => nomatch h⟩
  have hhours : (t / 3600).toNat = t.toNat / 3600 := UInt64.toNat_div _ _
  have hminutes : (t / 60 % 60).toNat = t.toNat / 60 % 60 := by
    rw [UInt64.toNat_mod, UInt64.toNat_div]
    rfl
  have hseconds : (t % 60).toNat = t.toNat % 60 := UInt64.toNat_mod _ _
  have hlength : ∀ n : UInt64, n.toNat < 60 → (padded 2 10 n).flatten.length = 2 := fun n hn =>
    length_flatten_padded (by decide) (by decide) (by omega)
  have hminutes_lt : (t / 60 % 60).toNat < 60 := by omega
  have hseconds_lt : (t % 60).toNat < 60 := by omega
  rw [readUptime, hsplit]
  simp only [read_flatten_padded (b := 10) (by decide) (by decide), Option.bind_eq_bind,
    Option.bind_some]
  have htotal : (t / 3600).toNat * 3600 + (t / 60 % 60).toNat * 60 + (t % 60).toNat = t.toNat := by
    omega
  rw [if_pos ⟨hlength _ hminutes_lt, hlength _ hseconds_lt, hminutes_lt, hseconds_lt⟩, htotal]

theorem length_uptimePieces_le (t : UInt64) :
    (asBytes (uptimePieces t).flatten).length ≤ uptimeTextLen := by
  have hlt := t.toNat_lt
  have hdiv : (t / 3600).toNat = t.toNat / 3600 := UInt64.toNat_div _ _
  have hhours : (asBytes (padded 2 10 (t / 3600)).flatten).length ≤ 16 :=
    length_asBytes_padded_le (by decide) (by decide) (by decide) (by decide) (by omega)
  have hbelow : ∀ n : UInt64, (asBytes (padded 2 10 (n % 60)).flatten).length ≤ 2 := fun n => by
    have hmod : (n % 60).toNat = n.toNat % 60 := UInt64.toNat_mod _ _
    exact length_asBytes_padded_le (by decide) (by decide) (by decide) (by decide) (by omega)
  have hminutes := hbelow (t / 60)
  have hseconds := hbelow t
  have hcolon : (asBytes ":".toList).length = 1 := rfl
  simp only [uptimePieces, List.flatten_append, List.flatten_singleton, asBytes_append,
    List.length_append, hcolon, uptimeTextLen]
  omega

theorem length_addressPieces_le (addr : UInt64) :
    (asBytes (addressPieces addr).flatten).length ≤ addressTextLen := by
  have hdigits : (asBytes (padded 16 16 addr).flatten).length ≤ 16 :=
    length_asBytes_padded_le (by decide) (by decide) (by decide) (by decide) addr.toNat_lt
  rw [addressPieces, List.flatten_cons, asBytes_append, List.length_append]
  exact Nat.add_le_add_left hdigits 2

theorem readAddress_addressPieces (addr : UInt64) :
    readAddress (addressPieces addr).flatten = some addr.toNat :=
  read_flatten_padded (by decide) (by decide) 16 addr

theorem SizeUnit.scale_pos (u : SizeUnit) : 0 < u.scale := by
  cases u <;> decide

theorem SizeUnit.scale_le (u : SizeUnit) : u.scale ≤ 1024 ^ 3 := by
  cases u <;> decide

theorem SizeUnit.le_scale {u : SizeUnit} (hu : u ≠ .b) : 1024 ≤ u.scale := by
  cases u with
  | b => exact absurd rfl hu
  | _ => decide

theorem SizeUnit.toNat_scale (u : SizeUnit) : (UInt64.ofNat u.scale).toNat = u.scale := by
  cases u <;> rfl

theorem SizeUnit.fits_of_lt {u : SizeUnit} {bytes : Nat} (hle : u = .b ∨ u.scale ≤ bytes)
    (hlt : bytes < u.scale * 1024) : u.Fits bytes where
  scale_le := hle
  largest v hv := by
    have hv' : v.scale < u.scale * 1024 := Nat.lt_of_le_of_lt hv hlt
    cases u <;> cases v <;> simp only [SizeUnit.scale] at hv' ⊢ <;> omega

theorem sizeScale_spec (bytes : UInt64) :
    (sizeScale bytes = none ∧ SizeUnit.b.Fits bytes.toNat) ∨
      ∃ u : SizeUnit, u ≠ .b ∧ sizeScale bytes = some (.ofNat u.scale, u.label) ∧
        u.Fits bytes.toNat := by
  by_cases hgib : gib ≤ bytes
  · exact .inr ⟨.gib, by decide, if_pos hgib, .inr (UInt64.le_iff_toNat_le.mp hgib),
      fun v _ => v.scale_le⟩
  have hlt_gib : bytes.toNat < 1024 ^ 3 := UInt64.lt_iff_toNat_lt.mp (UInt64.not_le.mp hgib)
  by_cases hmib : mib ≤ bytes
  · exact .inr ⟨.mib, by decide, by rw [sizeScale, if_neg hgib, if_pos hmib]; rfl,
      SizeUnit.fits_of_lt (.inr (UInt64.le_iff_toNat_le.mp hmib)) hlt_gib⟩
  have hlt_mib : bytes.toNat < 1024 ^ 2 := UInt64.lt_iff_toNat_lt.mp (UInt64.not_le.mp hmib)
  by_cases hkib : kib ≤ bytes
  · exact .inr ⟨.kib, by decide, by rw [sizeScale, if_neg hgib, if_neg hmib, if_pos hkib]; rfl,
      SizeUnit.fits_of_lt (.inr (UInt64.le_iff_toNat_le.mp hkib)) hlt_mib⟩
  have hlt_kib : bytes.toNat < 1024 := UInt64.lt_iff_toNat_lt.mp (UInt64.not_le.mp hkib)
  exact .inl ⟨by rw [sizeScale, if_neg hgib, if_neg hmib, if_neg hkib],
    SizeUnit.fits_of_lt (.inl rfl) hlt_kib⟩

theorem sizePieces_none {bytes : UInt64} (h : sizeScale bytes = none) :
    sizePieces bytes = .ok (padded 0 10 bytes ++ [" B".toList]) := by
  rw [sizePieces, h]
  rfl

theorem sizePieces_some {bytes : UInt64} {u : SizeUnit}
    (h : sizeScale bytes = some (.ofNat u.scale, u.label)) : sizePieces bytes =
      .ok (padded 0 10 (bytes / .ofNat u.scale) ++ [".".toList] ++
        padded 0 10 (.ofNat (bytes.toNat % u.scale * 10 / u.scale)) ++
          [" ".toList, u.label.toList]) := by
  have hlt : bytes.toNat % u.scale < u.scale := Nat.mod_lt _ u.scale_pos
  have hle := u.scale_le
  simp only [sizePieces, h, UInt64.toNat_mod, u.toNat_scale]
  rw [umul_of_lt (by omega), ok_bind, udiv_of_pos u.scale_pos]
  rfl

theorem Size.read_bytes (n : UInt64) :
    Size.read (padded 0 10 n ++ [" B".toList]).flatten = some ⟨n.toNat, 0, .b⟩ := by
  have hspace : ' ' ∉ (padded 0 10 n).flatten := not_mem_flatten_padded (by decide) (by decide) rfl
  have hpoint : '.' ∉ (padded 0 10 n).flatten := not_mem_flatten_padded (by decide) (by decide) rfl
  have hsplit : (padded 0 10 n ++ [" B".toList]).flatten.splitOn ' ' =
      [(padded 0 10 n).flatten, ['B']] := by
    have happend : (padded 0 10 n ++ [" B".toList]).flatten =
        (padded 0 10 n).flatten ++ ' ' :: ['B'] := by
      rw [List.flatten_append]
      rfl
    rw [happend, List.splitOn_append_cons_self_of_not_mem hspace]
    rfl
  rw [Size.read, hsplit]
  have hunit : [SizeUnit.b, .kib, .mib, .gib].find? (·.label.toList = ['B']) = some .b := rfl
  simp only [hunit, List.splitOn_eq_singleton hpoint, Option.bind_eq_bind, Option.bind_some,
    read_flatten_padded (b := 10) (by decide) (by decide)]
  rfl

theorem Size.read_tenths {u : SizeUnit} (hu : u ≠ .b) (q f : UInt64) (hf : f.toNat < 10) :
    Size.read (padded 0 10 q ++ [".".toList] ++ padded 0 10 f ++
      [" ".toList, u.label.toList]).flatten = some ⟨q.toNat, f.toNat, u⟩ := by
  have hspace : ∀ n, ' ' ∉ (padded 0 10 n).flatten := fun n =>
    not_mem_flatten_padded (by decide) (by decide) rfl
  have hpoint : ∀ n, '.' ∉ (padded 0 10 n).flatten := fun n =>
    not_mem_flatten_padded (by decide) (by decide) rfl
  have hlength : (padded 0 10 f).flatten.length = 1 := by
    rw [flatten_padded, Nat.toDigits_of_lt_base hf]
    rfl
  have hnumber : ((padded 0 10 q).flatten ++ '.' :: (padded 0 10 f).flatten).splitOn '.' =
      [(padded 0 10 q).flatten, (padded 0 10 f).flatten] := by
    rw [List.splitOn_append_cons_self_of_not_mem (hpoint q), List.splitOn_eq_singleton (hpoint f)]
  have hlabel : ' ' ∉ u.label.toList := by cases u <;> decide
  have hsplit : (padded 0 10 q ++ [".".toList] ++ padded 0 10 f ++
      [" ".toList, u.label.toList]).flatten.splitOn ' ' =
        [(padded 0 10 q).flatten ++ '.' :: (padded 0 10 f).flatten, u.label.toList] := by
    have happend : (padded 0 10 q ++ [".".toList] ++ padded 0 10 f ++
        [" ".toList, u.label.toList]).flatten =
          ((padded 0 10 q).flatten ++ '.' :: (padded 0 10 f).flatten) ++ ' ' :: u.label.toList := by
      simp
    rw [happend, List.splitOn_append_cons_self_of_not_mem, List.splitOn_eq_singleton hlabel]
    simp [hspace]
  have hunit : [SizeUnit.b, .kib, .mib, .gib].find? (·.label.toList = u.label.toList) = some u := by
    cases u <;> rfl
  rw [Size.read, hsplit]
  simp only [hunit, hnumber, Option.bind_eq_bind, Option.bind_some, hlength,
    read_flatten_padded (b := 10) (by decide) (by decide)]
  cases u with
  | b => exact absurd rfl hu
  | _ => rfl

theorem Size.denotes_bytes {n : Nat} (h : SizeUnit.b.Fits n) : Denotes ⟨n, 0, .b⟩ n := by
  have hdenoted : denoted ⟨n, 0, .b⟩ = n := by simp [denoted, SizeUnit.scale]
  constructor
  · exact h
  · exact fun _ => hdenoted
  · rw [hdenoted, sub_self]
  · exact absurd rfl

/-- The quotient of the remainder is cut off below the tenth. -/
theorem Size.denotes_tenths {u : SizeUnit} {n : Nat} (hu : u ≠ .b) (h : u.Fits n) :
    Denotes ⟨n / u.scale, n % u.scale * 10 / u.scale, u⟩ n := by
  have hdiv : (u.scale : ℚ) * (n / u.scale : Nat) + (n % u.scale : Nat) = n := by
    exact_mod_cast Nat.div_add_mod n u.scale
  have hle : (u.scale : ℚ) * (n % u.scale * 10 / u.scale : Nat) ≤ (n % u.scale : Nat) * 10 := by
    exact_mod_cast Nat.mul_div_le (n % u.scale * 10) u.scale
  have hlt : ((n % u.scale : Nat) * 10 : ℚ) <
      u.scale * (n % u.scale * 10 / u.scale : Nat) + u.scale := by
    exact_mod_cast Nat.lt_mul_div_succ (n % u.scale * 10) u.scale_pos
  have hdenoted : (n : ℚ) - denoted ⟨n / u.scale, n % u.scale * 10 / u.scale, u⟩ =
      (n % u.scale : Nat) - u.scale * (n % u.scale * 10 / u.scale : Nat) / 10 := by
    rw [denoted]
    linarith
  constructor
  · exact h
  · exact fun hb => absurd hb hu
  · rw [hdenoted]
    linarith
  · intro _
    rw [hdenoted]
    linarith

theorem sizePieces_ok (bytes : UInt64) : ∃ pieces size, sizePieces bytes = .ok pieces ∧
    (asBytes pieces.flatten).length ≤ sizeTextLen ∧ Size.read pieces.flatten = some size ∧
      size.Denotes bytes.toNat := by
  have hlt := bytes.toNat_lt
  rcases sizeScale_spec bytes with ⟨hscale, hfits⟩ | ⟨u, hu, hscale, hfits⟩
  · refine ⟨_, _, sizePieces_none hscale, ?_, Size.read_bytes bytes, Size.denotes_bytes hfits⟩
    have hnumber : (asBytes (padded 0 10 bytes).flatten).length ≤ 20 :=
      length_asBytes_padded_le (by decide) (by decide) (by decide) (by decide) (by omega)
    rw [List.flatten_append, asBytes_append, List.length_append]
    exact Nat.add_le_add hnumber (show 2 ≤ 4 by decide)
  · have hunits : (bytes / .ofNat u.scale).toNat = bytes.toNat / u.scale := by
      rw [UInt64.toNat_div, u.toNat_scale]
    have htenths_lt : bytes.toNat % u.scale * 10 / u.scale < 10 := by
      rw [Nat.div_lt_iff_lt_mul u.scale_pos, Nat.mul_comm]
      exact Nat.mul_lt_mul_of_pos_left (Nat.mod_lt _ u.scale_pos) (by decide)
    have htenths : (UInt64.ofNat (bytes.toNat % u.scale * 10 / u.scale)).toNat =
        bytes.toNat % u.scale * 10 / u.scale :=
      UInt64.toNat_ofNat_of_lt' (Nat.lt_trans htenths_lt (by decide))
    refine ⟨_, _, sizePieces_some hscale, ?_, Size.read_tenths hu _ _ (by omega), ?_⟩
    · have hquotient : bytes.toNat / u.scale < 10 ^ 17 := by
        rw [Nat.div_lt_iff_lt_mul u.scale_pos]
        have hle := SizeUnit.le_scale hu
        omega
      have hnumber : (asBytes (padded 0 10 (bytes / .ofNat u.scale)).flatten).length ≤ 17 :=
        length_asBytes_padded_le (by decide) (by decide) (by decide) (by decide) (by omega)
      have htenth : (asBytes (padded 0 10
          (.ofNat (bytes.toNat % u.scale * 10 / u.scale))).flatten).length ≤ 1 :=
        length_asBytes_padded_le (by decide) (by decide) (by decide) (by decide) (by omega)
      have hpoint : (asBytes ".".toList).length = 1 := rfl
      have hlabel : (asBytes [" ".toList, u.label.toList].flatten).length ≤ 4 := by
        cases u <;> decide
      rw [List.flatten_append, List.flatten_append, List.flatten_append, List.flatten_singleton,
        asBytes_append, asBytes_append, asBytes_append, List.length_append, List.length_append,
        List.length_append, hpoint, sizeTextLen]
      omega
    · rw [hunits, htenths]
      exact Size.denotes_tenths hu hfits

/-- The texts do not depend on what the buffers held. -/
theorem texts_read_back :
    (∀ t buf, ∃ text, formatUptime t buf = .ok text ∧ text = (uptimePieces t).flatten ∧
      (asBytes text).length ≤ uptimeTextLen ∧ readUptime text = some t.toNat) ∧
    (∀ addr buf, ∃ text, formatAddress addr buf = .ok text ∧
      text = (addressPieces addr).flatten ∧ (asBytes text).length ≤ addressTextLen ∧
      readAddress text = some addr.toNat) ∧
    ∀ bytes buf, ∃ text pieces size, formatSize bytes buf = .ok text ∧
      sizePieces bytes = .ok pieces ∧ text = pieces.flatten ∧
      (asBytes text).length ≤ sizeTextLen ∧ Size.read text = some size ∧
      size.Denotes bytes.toNat := by
  refine ⟨fun t buf => ?_, fun addr buf => ?_, fun bytes buf => ?_⟩
  · have hle := length_uptimePieces_le t
    exact ⟨_, ArrayWriter.format_of_le (by rwa [Vector.length_toList]), rfl, hle,
      readUptime_uptimePieces t⟩
  · have hle := length_addressPieces_le addr
    exact ⟨_, ArrayWriter.format_of_le (by rwa [Vector.length_toList]), rfl, hle,
      readAddress_addressPieces addr⟩
  · obtain ⟨pieces, size, hpieces, hle, hread, hdenotes⟩ := sizePieces_ok bytes
    refine ⟨_, pieces, size, ?_, hpieces, rfl, hle, hread, hdenotes⟩
    rw [formatSize, hpieces, ok_bind]
    exact ArrayWriter.format_of_le (by rwa [Vector.length_toList])

end FerricK
