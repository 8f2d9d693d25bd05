import FerricK.Irq.Idt
import FerricK.Irq.Transparency

namespace FerricK.Irq

open Function Machine Stack X86

def excStubWithErr (vector : BitVec 8) (tramp : BitVec 64) : List Instr := [
  .pushImm vector,
  .push .r11,
  .push .r10,
  .push .r9,
  .push .r8,
  .push .rdi,
  .push .rsi,
  .push .rdx,
  .push .rcx,
  .push .rax,
  .mov .rdi .rsp,
  .call tramp]

def excStubNoErr (vector : BitVec 8) (tramp : BitVec 64) : List Instr := [
  .pushImm 0,
  .pushImm vector,
  .push .r11,
  .push .r10,
  .push .r9,
  .push .r8,
  .push .rdi,
  .push .rsi,
  .push .rdx,
  .push .rcx,
  .push .rax,
  .mov .rdi .rsp,
  .call tramp]

def commonHandlerWrapper (handler : BitVec 64) : List Instr := [
  .mov .r12 .rdi,
  .andImm .rsp (-16),
  .call handler]

structure Handlers where
  excVector : BitVec 8 → BitVec 64
  irqStub : BitVec 64
  wrapper : BitVec 64
  exceptionCommon : BitVec 64

def Handlers.blocks (h : Handlers) : List (BitVec 64 × List Instr) :=
  (h.wrapper, commonHandlerWrapper h.exceptionCommon) ::
    (Idt.noErrVectors.map (fun v => (h.excVector v, excStubNoErr v h.wrapper)) ++
      Idt.errVectors.map (fun v => (h.excVector v, excStubWithErr v h.wrapper)))

structure Linked extends Handlers where
  apart : Apart toHandlers.blocks

def Handlers.program (h : Handlers) : Program where
  fetch := placeAll h.blocks
  outside _ := none

structure ExceptionFrame where
  rax : BitVec 64
  rcx : BitVec 64
  rdx : BitVec 64
  rsi : BitVec 64
  rdi : BitVec 64
  r8 : BitVec 64
  r9 : BitVec 64
  r10 : BitVec 64
  r11 : BitVec 64
  vector : BitVec 64
  errorCode : BitVec 64
  rip : BitVec 64
  cs : BitVec 64
  rflags : BitVec 64
  deriving DecidableEq, Inhabited

def ExceptionFrame.load (m : Mem) (a : BitVec 64) : ExceptionFrame where
  rax := read m (addr a 0)
  rcx := read m (addr a 1)
  rdx := read m (addr a 2)
  rsi := read m (addr a 3)
  rdi := read m (addr a 4)
  r8 := read m (addr a 5)
  r9 := read m (addr a 6)
  r10 := read m (addr a 7)
  r11 := read m (addr a 8)
  vector := read m (addr a 9)
  errorCode := read m (addr a 10)
  rip := read m (addr a 11)
  cs := read m (addr a 12)
  rflags := read m (addr a 13)

def captured (vector : BitVec 8) (errorCode : BitVec 64) (s : State) : ExceptionFrame where
  rax := s.reg .rax
  rcx := s.reg .rcx
  rdx := s.reg .rdx
  rsi := s.reg .rsi
  rdi := s.reg .rdi
  r8 := s.reg .r8
  r9 := s.reg .r9
  r10 := s.reg .r10
  r11 := s.reg .r11
  vector := vector.setWidth 64
  errorCode := errorCode
  rip := s.rip
  cs := s.cs.setWidth 64
  rflags := s.rflags

/-- The same with a dummy pushed over the processor's own code: every field from the code on
is one word off. -/
def displaced (vector : BitVec 8) (errorCode : BitVec 64) (s : State) : ExceptionFrame :=
  { captured vector 0 s with
    rip := errorCode
    cs := s.rip
    rflags := s.cs.setWidth 64 }

/-- The frame of each exception.  `init` takes vector 30 for one without a code. -/
def shown (vector : BitVec 8) (error : Option (BitVec 64)) (s : State) : ExceptionFrame :=
  if vector = 30 then displaced vector (error.getD 0) s
  else captured vector (error.getD 0) s

/-- `exception_common` entered as the ABI asks, lent the frame of an exception taken in `s`. -/
structure Dumped (h : Handlers) (v : BitVec 8) (error : Option (BitVec 64)) (s e : State) :
    Prop where
  rip : e.rip = h.exceptionCommon
  frame : ExceptionFrame.load e.mem (e.reg .rdi) = shown v error s
  align : (e.reg .rsp + 8).toNat % 16 = 0
  mem : ∀ a ∉ Bytes.span (frameBase s) 152, e.mem a = s.mem a

variable {cpu : Cpu} {selector : BitVec 16} {h : Handlers} {s t e : State} {base : BitVec 64}
  {v : BitVec 8} {code : BitVec 64} {codes : List (BitVec 64)} {k : Nat}

end FerricK.Irq
