import FerricK.Lib.Bytes
import FerricK.Lib.Rust

namespace FerricK

open Rust

/-- A `&[u8]`; no Rust slice is longer. -/
structure Slice where
  bytes : List UInt8
  length_lt : bytes.length < 2 ^ 63

inductive FontError
  | tooShort
  | corrupt
  deriving DecidableEq, Repr

namespace Font

def u16le (b : List UInt8) : Rust Nat := do
  return Bytes.ofLE [← index b 0, ← index b 1]

def u32le (b : List UInt8) : Rust Nat := do
  return Bytes.ofLE [← index b 0, ← index b 1, ← index b 2, ← index b 3]

def psf1Magic : Nat := 0x0436
def psf1Header : Nat := 4
def psf2Magic : Nat := 0x864ab572
def psf2Header : Nat := 32

end Font

structure Font where
  data : Slice
  version : Nat
  width : Nat
  height : Nat
  bytesPerRow : Nat
  glyphCount : Nat
  glyphBytes : Nat
  glyphDataOffset : Nat
  hasUnicode : Bool
  unicodeOffset : Nat

namespace Font

def parsePsf1 (data : Slice) : Rust (Except FontError Font) :=
  if data.bytes.length < psf1Header then return .error .tooShort
  else do
    let mode ← index data.bytes 2
    let charSize ← index data.bytes 3
    let glyphCount := if mode &&& 1 ≠ 0 then 512 else 256
    let glyphBytes := charSize.toNat
    let glyphDataOffset := psf1Header
    match checkedAdd 64 glyphDataOffset (← umul 64 glyphCount glyphBytes) with
    | none => return .error .corrupt
    | some glyphsEnd =>
      if glyphsEnd > data.bytes.length then return .error .corrupt
      else return .ok {
          data := data
          version := 1
          width := 8
          height := charSize.toNat
          bytesPerRow := 1
          glyphCount := glyphCount
          glyphBytes := glyphBytes
          glyphDataOffset := glyphDataOffset
          hasUnicode := mode &&& 2 ≠ 0
          unicodeOffset := glyphsEnd
        }

def parsePsf2 (data : Slice) : Rust (Except FontError Font) :=
  if data.bytes.length < psf2Header then return .error .tooShort
  else do
    let headersize ← u32le (← slice data.bytes 8 12)
    let flags ← u32le (← slice data.bytes 12 16)
    let numglyph ← u32le (← slice data.bytes 16 20)
    let bytesperglyph ← u32le (← slice data.bytes 20 24)
    let height ← u32le (← slice data.bytes 24 28)
    let width ← u32le (← slice data.bytes 28 32)
    if headersize < psf2Header ∨ numglyph = 0 ∨ bytesperglyph = 0 ∨ height = 0 ∨ width = 0 then
      return .error .corrupt
    else
      let glyphBytes := bytesperglyph
      match checkedAdd 64 headersize (← umul 64 numglyph glyphBytes) with
      | none => return .error .corrupt
      | some glyphsEnd =>
        if glyphsEnd > data.bytes.length then return .error .corrupt
        else return .ok {
            data := data
            version := 2
            width := width
            height := height
            bytesPerRow := bytesperglyph / height
            glyphCount := numglyph
            glyphBytes := glyphBytes
            glyphDataOffset := headersize
            hasUnicode := flags &&& 1 ≠ 0
            unicodeOffset := glyphsEnd
          }

def parse (data : Slice) : Rust (Except FontError Font) :=
  if data.bytes.length < 2 then return .error .tooShort
  else do
    if (← u16le data.bytes) = psf1Magic then parsePsf1 data
    else if data.bytes.length < 4 then return .error .corrupt
    else if (← u32le data.bytes) = psf2Magic then parsePsf2 data
    else return .error .corrupt

def glyph (f : Font) (index : Nat) : Rust (Option (List UInt8)) :=
  if index ≥ f.glyphCount then return none
  else do
    let start ← uadd 64 f.glyphDataOffset (← umul 64 index f.glyphBytes)
    return some (← slice f.data.bytes start (← uadd 64 start f.glyphBytes))

def glyphPixel (f : Font) (index x y : Nat) : Rust (Option Bool) :=
  if index ≥ f.glyphCount ∨ x ≥ f.width ∨ y ≥ f.height then return none
  else do
    let row ← uadd 64 (← umul 64 y f.bytesPerRow) (x / 8)
    match ← f.glyph index with
    | none => return none
    | some bytes =>
      let byte ← Rust.index bytes row
      return some (byte &&& (1 <<< UInt8.ofNat (7 - x % 8)) ≠ 0)

def lead (first : UInt8) : Nat × UInt8 :=
  if first < 0x80 then (1, 0)
  else if first &&& 0xE0 = 0xC0 then (2, 0xC0)
  else if first &&& 0xF0 = 0xE0 then (3, 0xE0)
  else if first &&& 0xF8 = 0xF0 then (4, 0xF0)
  else (1, 0x80)

def decodeUtf8 (b : List UInt8) : Rust (Option (Nat × Nat)) :=
  match b with
  | [] => return none
  | first :: _ =>
    let (len, bits) := lead first
    if b.length < len then return none
    else do
      let rest ← slice b 1 len
      let cp := rest.foldl (fun cp byte => cp * 2 ^ 6 % 2 ^ 32 ||| (byte &&& 0x3F).toNat)
        (first ^^^ bits).toNat
      return some (cp, len)

def skipSequence (bytes : List UInt8) : Nat → Nat → Rust Nat
  | 0, _ => .error .fuel
  | fuel + 1, pos => do
    let next ← uadd 64 pos 2
    if next ≤ bytes.length then
      let w ← u16le (← slice bytes pos next)
      if w = 0xFFFF ∨ w = 0xFFFE then usub next 2 else skipSequence bytes fuel next
    else return pos

def lookupV1Loop (bytes : List UInt8) (target glyphCount : Nat) :
    Nat → Nat → Nat → Rust (Option Nat)
  | 0, _, _ => .error .fuel
  | fuel + 1, pos, glyph =>
    if glyph < glyphCount then do
      let next ← uadd 64 pos 2
      if next ≤ bytes.length then
        let w ← u16le (← slice bytes pos next)
        if w = 0xFFFF then lookupV1Loop bytes target glyphCount fuel next (← uadd 32 glyph 1)
        else if w = 0xFFFE then
          lookupV1Loop bytes target glyphCount fuel (← skipSequence bytes fuel next) glyph
        else if w = target then return some glyph
        else lookupV1Loop bytes target glyphCount fuel next glyph
      else return none
    else return none

def lookupV2Loop (bytes : List UInt8) (target : Nat) : Nat → Nat → Nat → Rust (Option Nat)
  | 0, _, _ => .error .fuel
  | fuel + 1, pos, glyph =>
    if pos < bytes.length then do
      let b ← index bytes pos
      if b = 0xFF then lookupV2Loop bytes target fuel (← uadd 64 pos 1) (← uadd 32 glyph 1)
      else
        match ← decodeUtf8 (← slice bytes pos bytes.length) with
        | none => return none
        | some (cp, width) =>
          let pos ← uadd 64 pos width
          if cp = target then return some glyph else lookupV2Loop bytes target fuel pos glyph
    else return none

def unicodeLookupV1 (f : Font) (c : Char) : Rust (Option Nat) :=
  if f.unicodeOffset ≤ f.data.bytes.length then
    let bytes := f.data.bytes.drop f.unicodeOffset
    lookupV1Loop bytes c.toNat f.glyphCount (bytes.length + 1) 0 0
  else return none

def unicodeLookupV2 (f : Font) (c : Char) : Rust (Option Nat) :=
  if f.unicodeOffset ≤ f.data.bytes.length then
    let bytes := f.data.bytes.drop f.unicodeOffset
    lookupV2Loop bytes c.toNat (bytes.length + 1) 0 0
  else return none

def unicodeLookup (f : Font) (c : Char) : Rust (Option Nat) :=
  if f.version = 1 then f.unicodeLookupV1 c else f.unicodeLookupV2 c

def directIndex (f : Font) (c : Char) : Option Nat :=
  if c.toNat < f.glyphCount then some c.toNat else none

def glyphIndexFor (f : Font) (c : Char) : Rust (Option Nat) :=
  if f.hasUnicode then do
    match ← f.unicodeLookup c with
    | some g => return some g
    | none => return f.directIndex c
  else return f.directIndex c

theorem u16le_eq {b : List UInt8} (h : 2 ≤ b.length) : u16le b = .ok (Bytes.ofLE (b.take 2)) := by
  match b, h with
  | a₀ :: a₁ :: b, _ => rfl

theorem u32le_eq {b : List UInt8} (h : 4 ≤ b.length) : u32le b = .ok (Bytes.ofLE (b.take 4)) := by
  match b, h with
  | a₀ :: a₁ :: a₂ :: a₃ :: b, _ => rfl

end Font

end FerricK
