import FerricK.Lib.X86

namespace FerricK.Idt

open Function X86

structure IdtEntry where
  offsetLow16 : BitVec 16
  selector : BitVec 16
  ist : BitVec 8
  typeAttr : BitVec 8
  offsetMid16 : BitVec 16
  offsetHigh32 : BitVec 32
  reserved : BitVec 32
  deriving DecidableEq

def kernelCodeSelector : BitVec 16 := 0x08

def gateTypeInterrupt : BitVec 8 := 0x8E

abbrev Table := BitVec 8 → IdtEntry

def zeroed : Table := fun _ => ⟨0, 0, 0, 0, 0, 0, 0⟩

def setEntry (vector : BitVec 8) (handler : BitVec 64) (selector : BitVec 16) (ist : BitVec 8)
    (idt : Table) : Table :=
  update idt vector {
    offsetLow16 := handler.setWidth 16
    selector := selector
    ist := ist &&& 0x07
    typeAttr := gateTypeInterrupt
    offsetMid16 := (handler >>> 16).setWidth 16
    offsetHigh32 := (handler >>> 32).setWidth 32
    reserved := 0 }

/-- The vectors of `init`, in its order: those without an error code, those with one, the timer. -/
def noErrVectors : List (BitVec 8) := [0, 1, 2, 3, 4, 5, 6, 7, 9, 16, 18, 20, 30]

def errVectors : List (BitVec 8) := [13, 14]

def irq0Vector : BitVec 8 := 0x20

/-- `excVector` and `irqStubIrq0` are where the linker has put the stubs. -/
def init (excVector : BitVec 8 → BitVec 64) (irqStubIrq0 : BitVec 64) : Table :=
  let exceptions := (noErrVectors ++ errVectors).foldl
    (fun idt v => setEntry v (excVector v) kernelCodeSelector 0 idt) zeroed
  setEntry irq0Vector irqStubIrq0 kernelCodeSelector 0 exceptions

def IdtEntry.word (e : IdtEntry) : BitVec 128 :=
  e.reserved ++ e.offsetHigh32 ++ e.offsetMid16 ++ e.typeAttr ++ e.ist ++ e.selector ++
    e.offsetLow16

structure Gate where
  offset : BitVec 64
  selector : BitVec 16
  ist : BitVec 3
  type : BitVec 4
  dpl : BitVec 2
  present : Bool
  deriving DecidableEq

/-- The documented layout: offset 15:0 in bits 0-15, selector in bits 16-31, IST in bits 32-34,
type in bits 40-43, DPL in bits 45-46, P in bit 47, offset 63:16 in bits 48-95. -/
def decode (word : BitVec 128) : Gate where
  offset := word.extractLsb' 48 48 ++ word.extractLsb' 0 16
  selector := word.extractLsb' 16 16
  ist := word.extractLsb' 32 3
  type := word.extractLsb' 40 4
  dpl := word.extractLsb' 45 2
  present := word.getLsbD 47

variable {excVector : BitVec 8 → BitVec 64} {irqStubIrq0 handler : BitVec 64} {v w : BitVec 8}
  {idt : Table}

/-- Delivery through the table, which needs a present interrupt gate without a stack of its own;
some exceptions push an error code. -/
def deliver (cpu : Cpu) (idt : Table) (v : BitVec 8) (error : Option (BitVec 64)) (s : State) :
    Option State :=
  let gate := decode (idt v).word
  if gate.present ∧ gate.type = 0xE ∧ gate.ist = 0 then
    match error with
    | none => some (interrupt cpu gate.selector gate.offset s)
    | some code => some ((interrupt cpu gate.selector gate.offset s).push code)
  else none

end FerricK.Idt
