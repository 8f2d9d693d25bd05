import FerricK.Lib.A64

namespace FerricK.Vectors

open Function Stack A64

def excHandler (kind : Kind) (exceptionCommon hang : BitVec 64) : List Instr := [
  .sub .sp .sp 304,
  .stp 0 1 0,
  .stp 2 3 16,
  .stp 4 5 32,
  .stp 6 7 48,
  .stp 8 9 64,
  .stp 10 11 80,
  .stp 12 13 96,
  .stp 14 15 112,
  .stp 16 17 128,
  .stp 18 19 144,
  .stp 20 21 160,
  .stp 22 23 176,
  .stp 24 25 192,
  .stp 26 27 208,
  .stp 28 29 224,
  .str 30 240,
  .add (.x 16) .sp 304,
  .str 16 248,
  .mrs 17 .elrEl1,
  .str 17 256,
  .mrs 18 .spsrEl1,
  .str 18 264,
  .mrs 19 .esrEl1,
  .str 19 272,
  .mrs 20 .farEl1,
  .str 20 280,
  .movImm 21 kind.index,
  .str 21 288,
  .mov (.x 0) .sp,
  .bl exceptionCommon,
  .b hang]

def irqHandler (irqCommon : BitVec 64) : List Instr := [
  .sub .sp .sp 304,
  .stp 0 1 0,
  .stp 2 3 16,
  .stp 4 5 32,
  .stp 6 7 48,
  .stp 8 9 64,
  .stp 10 11 80,
  .stp 12 13 96,
  .stp 14 15 112,
  .stp 16 17 128,
  .stp 18 19 144,
  .stp 20 21 160,
  .stp 22 23 176,
  .stp 24 25 192,
  .stp 26 27 208,
  .stp 28 29 224,
  .str 30 240,
  .add (.x 16) .sp 304,
  .str 16 248,
  .mrs 17 .elrEl1,
  .str 17 256,
  .mrs 18 .spsrEl1,
  .str 18 264,
  .mrs 19 .esrEl1,
  .str 19 272,
  .mrs 20 .farEl1,
  .str 20 280,
  .movImm 21 1,
  .str 21 288,
  .mov (.x 0) .sp,
  .bl irqCommon,
  .ldp 0 1 0,
  .ldp 2 3 16,
  .ldp 4 5 32,
  .ldp 6 7 48,
  .ldp 8 9 64,
  .ldp 10 11 80,
  .ldp 12 13 96,
  .ldp 14 15 112,
  .ldp 16 17 128,
  .ldp 18 19 144,
  .ldp 20 21 160,
  .ldp 22 23 176,
  .ldp 24 25 192,
  .ldp 26 27 208,
  .ldp 28 29 224,
  .ldr 30 240,
  .add .sp .sp 304,
  .eret]

/-- `.balign 0x80` pads with `nop`. -/
def vector (target : BitVec 64) : List Instr := .b target :: List.replicate 31 .nop

def excSync : Nat := 512
def excIrq : Nat := 544
def excFiq : Nat := 576
def excSerror : Nat := 608
def excIrqRet : Nat := 640
def hang : Nat := 689

def stub : Origin → Kind → Nat
  | _, .sync => excSync
  | .el1h, .irq => excIrqRet
  | _, .irq => excIrq
  | _, .fiq => excFiq
  | _, .serror => excSerror

def label (base : BitVec 64) (k : Nat) : BitVec 64 := base + BitVec.ofNat 64 (4 * k)

def entries : List Nat := [
  excSync, excIrq, excFiq, excSerror,
  excSync, excIrqRet, excFiq, excSerror,
  excSync, excIrq, excFiq, excSerror,
  excSync, excIrq, excFiq]

/-- `.balign 2048, 0` fills the tail of the table with `udf #0`. -/
def exceptionVectorTables (base exceptionCommon irqCommon : BitVec 64) : List Instr :=
  entries.flatMap (fun k => vector (label base k)) ++
    (.b (label base excSerror) :: List.replicate 31 .udf) ++
    excHandler .sync exceptionCommon (label base hang) ++
    excHandler .irq exceptionCommon (label base hang) ++
    excHandler .fiq exceptionCommon (label base hang) ++
    excHandler .serror exceptionCommon (label base hang) ++
    irqHandler irqCommon ++
    [.b (label base hang)]

def codeLength : Nat := 690

structure Image where
  base : BitVec 64
  exceptionCommon : BitVec 64
  irqCommon : BitVec 64
  aligned : base.toNat % 2048 = 0
  apart : exceptionCommon ≠ irqCommon ∧
    exceptionCommon ∉ Bytes.span base (4 * codeLength) ∧
    irqCommon ∉ Bytes.span base (4 * codeLength)

def Image.program (img : Image) (irqCommon : State → State) : Program where
  base := img.base
  code := exceptionVectorTables img.base img.exceptionCommon img.irqCommon
  outside a := if a = img.irqCommon then some irqCommon else none

structure ExceptionFrame where
  x : Fin 31 → BitVec 64
  sp : BitVec 64
  elr : BitVec 64
  spsr : BitVec 64
  esr : BitVec 64
  far : BitVec 64
  kind : BitVec 64

def ExceptionFrame.load (m : Mem) (a : BitVec 64) : ExceptionFrame where
  x i := read m (addr a i)
  sp := read m (addr a 31)
  elr := read m (addr a 32)
  spsr := read m (addr a 33)
  esr := read m (addr a 34)
  far := read m (addr a 35)
  kind := read m (addr a 36)

def syndromes (kind : Kind) : List Instr := [
  .add (.x 16) .sp 304,
  .str 16 248,
  .mrs 17 .elrEl1,
  .str 17 256,
  .mrs 18 .spsrEl1,
  .str 18 264,
  .mrs 19 .esrEl1,
  .str 19 272,
  .mrs 20 .farEl1,
  .str 20 280,
  .movImm 21 kind.index,
  .str 21 288,
  .mov (.x 0) .sp]

def capture (kind : Kind) : List Instr :=
  .sub .sp .sp 304 :: (saves 0 (List.finRange 31) ++ syndromes kind)

variable {cpu : Cpu} {img : Image} {f : State → State} {s t e : State} {kind : Kind}
  {origin : Origin} {base exceptionCommon irqCommon : BitVec 64} {k : Nat}

end FerricK.Vectors
