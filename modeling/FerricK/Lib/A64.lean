import FerricK.Lib.Machine
import FerricK.Lib.Stack

/-! A 64-bit Arm machine at EL1, as far as an exception vector table needs one. -/

namespace A64

open Function Machine Stack

scoped instance neZero_registers : NeZero 31 := ⟨by decide⟩

inductive SysReg
  | elrEl1 | spsrEl1 | esrEl1 | farEl1 | vbarEl1
  deriving DecidableEq, Repr

/-- `v` are the SIMD and floating-point registers, and `fpsr` is the status of those. -/
structure State where
  x : Fin 31 → BitVec 64
  v : Fin 32 → BitVec 128
  fpsr : BitVec 64
  spEl0 : BitVec 64
  spEl1 : BitVec 64
  pc : BitVec 64
  pstate : BitVec 64
  sys : SysReg → BitVec 64
  mem : Mem

/-- `SPSel` is bit 0 of a saved state, and clear at EL0. -/
def usesSpEl1 (pstate : BitVec 64) : Bool := pstate.getLsbD 0

inductive Operand
  | x (i : Fin 31)
  | sp
  deriving DecidableEq

namespace State

def sp (s : State) : BitVec 64 := if usesSpEl1 s.pstate then s.spEl1 else s.spEl0

def get (s : State) : Operand → BitVec 64
  | .x i => s.x i
  | .sp => s.sp

def set (s : State) (v : BitVec 64) : Operand → State
  | .x i => { s with x := update s.x i v }
  | .sp => if usesSpEl1 s.pstate then { s with spEl1 := v } else { s with spEl0 := v }

end State

/-- Loads and stores are at an offset from the stack pointer. -/
inductive Instr
  | b (target : BitVec 64)
  | bl (target : BitVec 64)
  | add (d n : Operand) (imm : Nat)
  | sub (d n : Operand) (imm : Nat)
  | mov (d n : Operand)
  | movImm (d : Fin 31) (imm : Nat)
  | mrs (d : Fin 31) (r : SysReg)
  | stp (t₁ t₂ : Fin 31) (offset : Nat)
  | str (t : Fin 31) (offset : Nat)
  | ldp (t₁ t₂ : Fin 31) (offset : Nat)
  | ldr (t : Fin 31) (offset : Nat)
  | eret
  | nop
  | udf
  deriving DecidableEq

inductive Kind
  | sync | irq | fiq | serror
  deriving DecidableEq, Repr

inductive Origin
  | el1t | el1h | el0 | el0Aarch32
  deriving DecidableEq, Repr

def Kind.index : Kind → Nat
  | sync => 0
  | irq => 1
  | fiq => 2
  | serror => 3

def Origin.index : Origin → Nat
  | el1t => 0
  | el1h => 1
  | el0 => 2
  | el0Aarch32 => 3

def origin (pstate : BitVec 64) : Origin :=
  if pstate.extractLsb' 2 2 = 0 then if pstate.getLsbD 4 then .el0Aarch32 else .el0
  else if usesSpEl1 pstate then .el1h else .el1t

/-- What an exception puts into `PSTATE` and the syndrome registers; any will do that selects
the stack of EL1. -/
structure Cpu where
  entryPstate : BitVec 64 → BitVec 64
  selects : ∀ p, usesSpEl1 (entryPstate p) = true
  syndrome : Kind → State → BitVec 64
  faultAddress : Kind → State → BitVec 64

def takeException (cpu : Cpu) (kind : Kind) (s : State) : State :=
  { s with
    pc := s.sys .vbarEl1 + BitVec.ofNat 64 (0x200 * (origin s.pstate).index + 0x80 * kind.index)
    pstate := cpu.entryPstate s.pstate
    sys := fun
      | .elrEl1 => s.pc
      | .spsrEl1 => s.pstate
      | .esrEl1 => cpu.syndrome kind s
      | .farEl1 => cpu.faultAddress kind s
      | .vbarEl1 => s.sys .vbarEl1 }

def exec (cpu : Cpu) (i : Instr) (s : State) : State :=
  let next := { s with pc := s.pc + 4 }
  let slot (offset : Nat) := s.sp + BitVec.ofNat 64 offset
  let word (offset : Nat) := read s.mem (slot offset)
  match i with
  | .b target => { s with pc := target }
  | .bl target => { s with pc := target, x := update s.x 30 (s.pc + 4) }
  | .add d n imm => next.set (s.get n + BitVec.ofNat 64 imm) d
  | .sub d n imm => next.set (s.get n - BitVec.ofNat 64 imm) d
  | .mov d n => next.set (s.get n) d
  | .movImm d imm => next.set (BitVec.ofNat 64 imm) (.x d)
  | .mrs d r => next.set (s.sys r) (.x d)
  | .stp t₁ t₂ offset =>
    { next with mem := write (write s.mem (slot offset) (s.x t₁)) (slot (offset + 8)) (s.x t₂) }
  | .str t offset => { next with mem := write s.mem (slot offset) (s.x t) }
  | .ldp t₁ t₂ offset =>
    { next with x := update (update s.x t₁ (word offset)) t₂ (word (offset + 8)) }
  | .ldr t offset => { next with x := update s.x t (word offset) }
  | .eret => { s with pc := s.sys .elrEl1, pstate := s.sys .spsrEl1 }
  | .nop => next
  | .udf => takeException cpu .sync s

structure Program where
  base : BitVec 64
  code : List Instr
  outside : BitVec 64 → Option (State → State)

def Program.fetch (p : Program) (a : BitVec 64) : Option Instr :=
  if (a - p.base).toNat % 4 = 0 then p.code[(a - p.base).toNat / 4]? else none

def step (cpu : Cpu) (p : Program) (s : State) : Option State :=
  match p.outside s.pc with
  | some f => some (f s)
  | none => (p.fetch s.pc).map (exec cpu · s)

def CodeAt (p : Program) : BitVec 64 → List Instr → Prop
  | _, [] => True
  | a, i :: l => (p.outside a = none ∧ p.fetch a = some i) ∧ CodeAt p (a + 4) l

def Instr.Plain : Instr → Prop
  | .b _ | .bl _ | .eret | .udf => False
  | _ => True

instance : DecidablePred Instr.Plain
  | .b _ | .bl _ | .eret | .udf => inferInstanceAs (Decidable False)
  | .add .. | .sub .. | .mov .. | .movImm .. | .mrs .. | .stp .. | .str .. | .ldp .. | .ldr ..
  | .nop => inferInstanceAs (Decidable True)

def run (cpu : Cpu) (l : List Instr) (s : State) : State := l.foldl (fun s i => exec cpu i s) s

def saves : Nat → List (Fin 31) → List Instr
  | _, [] => []
  | k, [r] => [.str r (8 * k)]
  | k, r₁ :: r₂ :: rs => .stp r₁ r₂ (8 * k) :: saves (k + 2) rs

def restores : Nat → List (Fin 31) → List Instr
  | _, [] => []
  | k, [r] => [.ldr r (8 * k)]
  | k, r₁ :: r₂ :: rs => .ldp r₁ r₂ (8 * k) :: restores (k + 2) rs

variable {cpu : Cpu} {p : Program} {s t : State} {i : Instr} {l rest : List Instr}
  {rs : List (Fin 31)} {a base : BitVec 64} {k m n : Nat}

theorem CodeAt.append (h : CodeAt p a (l ++ rest)) :
    CodeAt p a l ∧ CodeAt p (a + BitVec.ofNat 64 (4 * l.length)) rest := by
  induction l generalizing a with
  | nil => exact ⟨trivial, by simpa using h⟩
  | cons i l ih =>
    obtain ⟨hhead, htail⟩ := ih h.2
    refine ⟨⟨h.1, hhead⟩, ?_⟩
    rwa [List.length_cons, Nat.mul_succ, Nat.add_comm, BitVec.ofNat_add, ← BitVec.add_assoc]

theorem run_cons (cpu : Cpu) (i : Instr) (l : List Instr) (s : State) :
    run cpu (i :: l) s = run cpu l (exec cpu i s) := rfl

theorem run_append (cpu : Cpu) (l rest : List Instr) (s : State) :
    run cpu (l ++ rest) s = run cpu rest (run cpu l s) := List.foldl_append

end A64
