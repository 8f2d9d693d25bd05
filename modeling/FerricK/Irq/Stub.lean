import FerricK.Lib.X86

namespace FerricK.Irq

open Function Stack X86

def irqStubIrq0 (tramp : BitVec 64) : List Instr := [
  .pushImm 0,
  .pushImm 0x20,
  .push .r11,
  .push .r10,
  .push .r9,
  .push .r8,
  .push .rdi,
  .push .rsi,
  .push .rdx,
  .push .rcx,
  .push .rax,
  .mov .rdi .rsp,
  .call tramp,
  .pop .rax,
  .pop .rcx,
  .pop .rdx,
  .pop .rsi,
  .pop .rdi,
  .pop .r8,
  .pop .r9,
  .pop .r10,
  .pop .r11,
  .addImm .rsp 16,
  .iretq]

def irqHandlerWrapper (handler : BitVec 64) : List Instr := [
  .mov .r12 .rsp,
  .mov .r13 .rdi,
  .andImm .rsp (-16),
  .call handler,
  .mov .rsp .r12,
  .ret]

structure Image where
  stub : BitVec 64
  wrapper : BitVec 64
  common : BitVec 64
  apart : ∀ a ∈ Bytes.span wrapper (codeSize (irqHandlerWrapper common)),
    a ∉ Bytes.span stub (codeSize (irqStubIrq0 wrapper))
  common_apart : common ∉ Bytes.span stub (codeSize (irqStubIrq0 wrapper)) ∧
    common ∉ Bytes.span wrapper (codeSize (irqHandlerWrapper common))

/-- The code with some behaviour of `irq_common`, from its entry to its return. -/
def Image.program (img : Image) (irqCommon : State → State) : Program where
  fetch a := place img.stub (irqStubIrq0 img.wrapper) a <|>
    place img.wrapper (irqHandlerWrapper img.common) a
  outside a := if a = img.common then some irqCommon else none

def calleeSaved : List Reg := [.rbx, .rbp, .r12, .r13, .r14, .r15]

/-- What the SysV ABI asks of a function that takes nothing on the stack. -/
structure Obeys (f : State → State) : Prop where
  rip : ∀ s, (f s).rip = s.top
  rsp : ∀ s, (f s).reg .rsp = s.reg .rsp + 8
  saved : ∀ s, ∀ r ∈ calleeSaved, (f s).reg r = s.reg r
  mem : ∀ s a, (s.reg .rsp).toNat ≤ a.toNat → (f s).mem a = s.mem a

structure Unharmed (s t : State) : Prop where
  reg : t.reg = s.reg
  rip : t.rip = s.rip
  rflags : t.rflags = s.rflags
  mem : ∀ a, (s.reg .rsp).toNat ≤ a.toNat → t.mem a = s.mem a

def Transparent (cpu : Cpu) (selector : BitVec 16) (img : Image) (s : State) : Prop :=
  ∀ irqCommon, Obeys irqCommon → ∃ fuel t,
    resume cpu (img.program irqCommon) fuel (interrupt cpu selector img.stub s) = some t ∧
      Unharmed s t

def frameBase (s : State) : BitVec 64 := (s.reg .rsp &&& ~~~15) - 152

def saved : List Reg := [.rax, .rcx, .rdx, .rsi, .rdi, .r8, .r9, .r10, .r11]

def prologue : List Instr :=
  [.pushImm 0, .pushImm 0x20] ++ saved.reverse.map .push ++ [.mov .rdi .rsp]

def epilogue : List Instr := saved.map .pop ++ [.addImm .rsp 16]

def entry : List Instr := [.mov .r12 .rsp, .mov .r13 .rdi, .andImm .rsp (-16)]

variable {cpu : Cpu} {selector : BitVec 16} {img : Image} {f : State → State} {s t e : State}
  {base : BitVec 64}

theorem irqStubIrq0_eq (tramp : BitVec 64) :
    irqStubIrq0 tramp = prologue ++ .call tramp :: (epilogue ++ [.iretq]) := rfl

theorem irqHandlerWrapper_eq (handler : BitVec 64) :
    irqHandlerWrapper handler = entry ++ [.call handler, .mov .rsp .r12, .ret] := rfl

theorem Image.codeAt_stub (img : Image) (f : State → State) :
    CodeAt (img.program f) img.stub (irqStubIrq0 img.wrapper) := by
  apply codeAt_of_place (by simp [codeSize, irqStubIrq0, Instr.size, Reg.extended])
  intro a ha
  have hne : a ≠ img.common := by
    rintro rfl
    exact img.common_apart.1 ha
  refine ⟨if_neg hne, ?_⟩
  have hwrapper : place img.wrapper (irqHandlerWrapper img.common) a = none :=
    place_eq_none fun hmem => img.apart a hmem ha
  show (place img.stub (irqStubIrq0 img.wrapper) a <|> _) = _
  rw [hwrapper]
  cases place img.stub (irqStubIrq0 img.wrapper) a <;> rfl

theorem Image.codeAt_wrapper (img : Image) (f : State → State) :
    CodeAt (img.program f) img.wrapper (irqHandlerWrapper img.common) := by
  apply codeAt_of_place (by simp [codeSize, irqHandlerWrapper, Instr.size])
  intro a ha
  have hne : a ≠ img.common := by
    rintro rfl
    exact img.common_apart.2 ha
  refine ⟨if_neg hne, ?_⟩
  have hstub : place img.stub (irqStubIrq0 img.wrapper) a = none :=
    place_eq_none (img.apart a ha)
  show (place img.stub (irqStubIrq0 img.wrapper) a <|> _) = _
  rw [hstub]
  rfl

end FerricK.Irq
