import FerricK.Irq.Vectors

namespace FerricK.Vectors

open Function Machine Stack A64

def captured (cpu : Cpu) (kind : Kind) (s : State) : ExceptionFrame where
  x := s.x
  sp := s.spEl1
  elr := s.pc
  spsr := s.pstate
  esr := cpu.syndrome kind s
  far := cpu.faultAddress kind s
  kind := BitVec.ofNat 64 kind.index

def Image.target (img : Image) : Origin → Kind → BitVec 64
  | .el1h, .irq => img.irqCommon
  | _, _ => img.exceptionCommon

structure Entered (cpu : Cpu) (handler : BitVec 64) (kind : Kind) (s e : State) : Prop where
  pc : e.pc = handler
  x0 : e.x 0 = s.spEl1 - 304
  pstate : usesSpEl1 e.pstate = true
  spEl0 : e.spEl0 = s.spEl0
  spEl1 : e.spEl1 = s.spEl1 - 304
  frame : ExceptionFrame.load e.mem (e.x 0) = captured cpu kind s
  elr : e.sys .elrEl1 = s.pc
  spsr : e.sys .spsrEl1 = s.pstate
  v : e.v = s.v
  fpsr : e.fpsr = s.fpsr
  mem : ∀ a ∉ Bytes.span (s.spEl1 - 304) 304, e.mem a = s.mem a

/-- The SIMD registers whose lower half a callee has to keep. -/
def lowSaved (i : Fin 32) : Prop := 8 ≤ i.val ∧ i.val < 16

instance (i : Fin 32) : Decidable (lowSaved i) := inferInstanceAs (Decidable (_ ∧ _))

/-- What the AAPCS64 asks of a function called in `e`, and lent the frame at its stack pointer. -/
structure Obeys (f : State → State) (e : State) : Prop where
  pc : (f e).pc = e.x 30
  spsel : usesSpEl1 (f e).pstate = usesSpEl1 e.pstate
  spEl0 : (f e).spEl0 = e.spEl0
  spEl1 : (f e).spEl1 = e.spEl1
  low : ∀ i, lowSaved i → ((f e).v i).setWidth 64 = (e.v i).setWidth 64
  frame : ∀ a ∈ Bytes.span e.sp 304, (f e).mem a = e.mem a

structure Unharmed (s t : State) : Prop where
  x : t.x = s.x
  v : t.v = s.v
  fpsr : t.fpsr = s.fpsr
  spEl0 : t.spEl0 = s.spEl0
  spEl1 : t.spEl1 = s.spEl1
  pc : t.pc = s.pc
  pstate : t.pstate = s.pstate

variable {cpu : Cpu} {img : Image} {f : State → State} {s t e : State} {kind : Kind}
  {m : Mem} {base : BitVec 64} {i : Nat}

def linked : Image where
  base := 0x80800
  exceptionCommon := 0x90000
  irqCommon := 0x90100
  aligned := by decide
  apart := by
    refine ⟨by decide, ?_, ?_⟩
    all_goals
      intro hmem
      obtain ⟨i, hi, heq⟩ := Bytes.mem_span_bitVec.mp hmem
      replace hi : i < 2760 := hi
      bv_omega

theorem Obeys.read_frame (hf : Obeys f e) (he : Entered cpu base kind s e) (r : Fin 31) :
    read (f e).mem (addr (s.spEl1 - 304) r) = s.x r := by
  have hsp : e.sp = s.spEl1 - 304 := (if_pos he.pstate).trans he.spEl1
  have hkeep : read (f e).mem (addr (s.spEl1 - 304) r) = read e.mem (addr (s.spEl1 - 304) r) := by
    refine read_congr fun a ha => hf.frame a ?_
    obtain ⟨j, -, hj, rfl⟩ := mem_span_addr.mp ha
    rw [hsp]
    exact Bytes.mem_span_bitVec.mpr ⟨j, by omega, rfl⟩
  have hframe := congrFun (congrArg ExceptionFrame.x he.frame) r
  rw [he.x0] at hframe
  exact hkeep.trans hframe

def bump (s : State) : State := { s with pc := s.x 30, mem := update s.mem 0x200000 1 }

end FerricK.Vectors
