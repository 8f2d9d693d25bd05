import FerricK.Grid.Defs
import FerricK.Lib.Bytes

namespace FerricK

open Rust

inductive FramebufferError
  | notRgb
  | unsupportedLayout
  | outOfBounds
  deriving DecidableEq, Repr

structure ChannelMask where
  size : Nat
  shift : Nat
  deriving DecidableEq, Repr

namespace ChannelMask

def new (size shift : UInt8) (bpp : UInt16) : Except FramebufferError ChannelMask :=
  if size = 0 ∨ shift.toNat + size.toNat > bpp.toNat then .error .unsupportedLayout
  else .ok ⟨size.toNat, shift.toNat⟩

def bitMask (m : ChannelMask) : Rust Nat := do
  ushl 64 (← usub (← ushl 64 1 m.size) 1) m.shift

def disjoint (a b : ChannelMask) : Rust Bool := do
  return (← a.bitMask) &&& (← b.bitMask) = 0

/-- The conjunction in `fromLayout`, which stops at the first overlap. -/
def allDisjoint (red green blue : ChannelMask) : Rust Bool := do
  if ← red.disjoint green then
    if ← green.disjoint blue then blue.disjoint red else return false
  else return false

end ChannelMask

/-- `surface` is the bytes from `ptr` on. -/
structure FrameLayout where
  ptr : UInt64
  surface : Nat → UInt8
  width : UInt32
  height : UInt32
  pitch : UInt64
  bpp : UInt16
  redSize : UInt8
  redShift : UInt8
  greenSize : UInt8
  greenShift : UInt8
  blueSize : UInt8
  blueShift : UInt8

structure FrameBuffer where
  ptr : Nat
  surface : Nat → UInt8
  width : Nat
  height : Nat
  pitch : Nat
  bytesPerPixel : Nat
  red : ChannelMask
  green : ChannelMask
  blue : ChannelMask

namespace FrameBuffer

def fromLayout (layout : FrameLayout) : Rust (Except FramebufferError FrameBuffer) :=
  let bpp := layout.bpp.toNat
  if bpp = 0 ∨ bpp % 8 ≠ 0 ∨ bpp > 64 then return .error .unsupportedLayout
  else
    match ChannelMask.new layout.redSize layout.redShift layout.bpp,
      ChannelMask.new layout.greenSize layout.greenShift layout.bpp,
      ChannelMask.new layout.blueSize layout.blueShift layout.bpp with
    | .ok red, .ok green, .ok blue => do
      let disjoint ← ChannelMask.allDisjoint red green blue
      let bytesPerPixel := bpp / 8
      let row ← umul 64 layout.width.toNat bytesPerPixel
      if !disjoint ∨ layout.pitch.toNat < row ∨
          (checkedMul 64 layout.pitch.toNat layout.height.toNat).isNone then
        return .error .unsupportedLayout
      else return .ok {
          ptr := layout.ptr.toNat
          surface := layout.surface
          width := layout.width.toNat
          height := layout.height.toNat
          pitch := layout.pitch.toNat
          bytesPerPixel := bytesPerPixel
          red := red
          green := green
          blue := blue
        }
    | .error e, _, _ | .ok _, .error e, _ | .ok _, .ok _, .error e => return .error e

def encodeChannel (mask : ChannelMask) (value : UInt8) : Rust Nat := do
  let max ← usub (← ushl 64 1 mask.size) 1
  ushl 64 ((← umul 64 value.toNat max) / 255) mask.shift

def encode (fb : FrameBuffer) (color : Rgb) : Rust Nat := do
  return (← encodeChannel fb.red color.r) ||| (← encodeChannel fb.green color.g) |||
    (← encodeChannel fb.blue color.b)

/-- The volatile stores, taken to be aligned: where the layout is no `AlignedLayout`, a build with
debug assertions aborts in them, which no statement about the pixels sees. -/
def writeUnchecked (fb : FrameBuffer) (x y pixel : Nat) : Rust FrameBuffer := do
  let offset ← uadd 64 (← umul 64 y fb.pitch) (← umul 64 x fb.bytesPerPixel)
  let surface :=
    match fb.bytesPerPixel with
    | 8 => Bytes.store fb.surface offset (Bytes.toLE 8 pixel)
    | 4 => Bytes.store fb.surface offset (Bytes.toLE 4 pixel)
    | 2 => Bytes.store fb.surface offset (Bytes.toLE 2 pixel)
    | n => Bytes.store fb.surface offset ((Bytes.toLE 8 pixel).take n)
  return { fb with surface := surface }

def writeWord (fb : FrameBuffer) (x y word : Nat) :
    Rust (Except FramebufferError Unit × FrameBuffer) :=
  if x ≥ fb.width ∨ y ≥ fb.height then return (.error .outOfBounds, fb)
  else do return (.ok (), ← fb.writeUnchecked x y word)

end FrameBuffer

end FerricK
