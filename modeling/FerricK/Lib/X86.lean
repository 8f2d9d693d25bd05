import FerricK.Lib.Machine
import FerricK.Lib.Stack

/-! A 64-bit x86 machine, as far as interrupt stubs need one. -/

namespace X86

open Function Stack

inductive Reg
  | rax | rcx | rdx | rbx | rsp | rbp | rsi | rdi
  | r8 | r9 | r10 | r11 | r12 | r13 | r14 | r15
  deriving DecidableEq, Repr

def Reg.extended : Reg → Bool
  | .r8 | .r9 | .r10 | .r11 | .r12 | .r13 | .r14 | .r15 => true
  | _ => false

structure State where
  reg : Reg → BitVec 64
  rip : BitVec 64
  rflags : BitVec 64
  cs : BitVec 16
  ss : BitVec 16
  mem : Mem

namespace State

def push (v : BitVec 64) (s : State) : State :=
  { s with
    reg := update s.reg .rsp (s.reg .rsp - 8)
    mem := write s.mem (s.reg .rsp - 8) v }

def top (s : State) : BitVec 64 := read s.mem (s.reg .rsp)

def drop (s : State) : State := { s with reg := update s.reg .rsp (s.reg .rsp + 8) }

end State

inductive Instr
  | pushImm (v : BitVec 8)
  | push (r : Reg)
  | pop (r : Reg)
  | mov (dst src : Reg)
  | addImm (r : Reg) (v : BitVec 8)
  | andImm (r : Reg) (v : BitVec 8)
  | call (target : BitVec 64)
  | ret
  | iretq
  deriving DecidableEq

def Instr.size : Instr → Nat
  | .pushImm _ => 2
  | .push r | .pop r => if r.extended then 2 else 1
  | .mov _ _ => 3
  | .addImm _ _ | .andImm _ _ => 4
  | .call _ => 5
  | .ret => 1
  | .iretq => 2

/-- The flags that arithmetic leaves, and those an interrupt leaves; any will do. -/
structure Cpu where
  arithFlags : Instr → State → BitVec 64
  interruptFlags : BitVec 64 → BitVec 64

def exec (cpu : Cpu) (i : Instr) (s : State) : State :=
  let next := { s with rip := s.rip + BitVec.ofNat 64 i.size }
  match i with
  | .pushImm v => next.push (v.signExtend 64)
  | .push r => next.push (s.reg r)
  | .pop r => { next.drop with reg := update next.drop.reg r s.top }
  | .mov dst src => { next with reg := update s.reg dst (s.reg src) }
  | .addImm r v => { next with
      reg := update s.reg r (s.reg r + v.signExtend 64), rflags := cpu.arithFlags i s }
  | .andImm r v => { next with
      reg := update s.reg r (s.reg r &&& v.signExtend 64), rflags := cpu.arithFlags i s }
  | .call target => { next.push next.rip with rip := target }
  | .ret => { s.drop with rip := s.top }
  | .iretq => { s with
      rip := s.top
      cs := s.drop.top.setWidth 16
      rflags := s.drop.drop.top
      reg := update s.reg .rsp s.drop.drop.drop.top
      ss := s.drop.drop.drop.drop.top.setWidth 16 }

/-- An interrupt through a gate without a stack of its own: the stack is aligned, and the frame
that `iretq` takes off is pushed. -/
def interrupt (cpu : Cpu) (selector : BitVec 16) (entry : BitVec 64) (s : State) : State :=
  let aligned := { s with reg := update s.reg .rsp (s.reg .rsp &&& ~~~15) }
  let pushed := ((((aligned.push (s.ss.setWidth 64)).push (s.reg .rsp)).push s.rflags).push
    (s.cs.setWidth 64)).push s.rip
  { pushed with rip := entry, cs := selector, rflags := cpu.interruptFlags s.rflags }

/-- The instructions there are, and the code of which only the effect is known. -/
structure Program where
  fetch : BitVec 64 → Option Instr
  outside : BitVec 64 → Option (State → State)

/-- Runs to the first `iretq`, and through it. -/
def resume (cpu : Cpu) (p : Program) : Nat → State → Option State
  | 0, _ => none
  | n + 1, s =>
    match p.outside s.rip with
    | some f => resume cpu p n (f s)
    | none =>
      match p.fetch s.rip with
      | none => none
      | some .iretq => some (exec cpu .iretq s)
      | some i => resume cpu p n (exec cpu i s)

def step (cpu : Cpu) (p : Program) (s : State) : Option State :=
  match p.outside s.rip with
  | some f => some (f s)
  | none => (p.fetch s.rip).map (exec cpu · s)

def codeSize (l : List Instr) : Nat := (l.map Instr.size).sum

def place (base : BitVec 64) : List Instr → BitVec 64 → Option Instr
  | [], _ => none
  | i :: l, a => if a = base then some i else place (base + BitVec.ofNat 64 i.size) l a

def placeAll (blocks : List (BitVec 64 × List Instr)) (a : BitVec 64) : Option Instr :=
  blocks.findSome? fun b => place b.1 b.2 a

def Apart (blocks : List (BitVec 64 × List Instr)) : Prop :=
  blocks.Pairwise fun b c =>
    ∀ a ∈ Bytes.span b.1 (codeSize b.2), a ∉ Bytes.span c.1 (codeSize c.2)

def CodeAt (p : Program) : BitVec 64 → List Instr → Prop
  | _, [] => True
  | a, i :: l => (p.outside a = none ∧ p.fetch a = some i) ∧
      CodeAt p (a + BitVec.ofNat 64 i.size) l

def Instr.Plain : Instr → Prop
  | .call _ | .ret | .iretq => False
  | _ => True

instance : DecidablePred Instr.Plain
  | .call _ | .ret | .iretq => inferInstanceAs (Decidable False)
  | .pushImm _ | .push _ | .pop _ | .mov _ _ | .addImm _ _ | .andImm _ _ =>
    inferInstanceAs (Decidable True)

def run (cpu : Cpu) (l : List Instr) (s : State) : State := l.foldl (fun s i => exec cpu i s) s

variable {cpu : Cpu} {p : Program} {s t : State} {i : Instr} {l rest : List Instr} {r : Reg}
  {rs : List Reg} {base a : BitVec 64} {n k : Nat}

theorem Instr.size_pos (i : Instr) : 0 < i.size := by
  unfold Instr.size
  split <;> (try split) <;> omega

theorem codeSize_cons (i : Instr) (l : List Instr) : codeSize (i :: l) = i.size + codeSize l :=
  List.sum_cons

theorem mem_span_tail (h : a ∈ Bytes.span (base + BitVec.ofNat 64 i.size) (codeSize l)) :
    ∃ j, 0 < j ∧ j < codeSize (i :: l) ∧ a = base + BitVec.ofNat 64 j := by
  obtain ⟨j, hj, rfl⟩ := Bytes.mem_span_bitVec.mp h
  have hpos := i.size_pos
  exact ⟨i.size + j, by omega, by rw [codeSize_cons]; omega,
    by rw [BitVec.add_assoc, ← BitVec.ofNat_add]⟩

theorem place_eq_none (h : a ∉ Bytes.span base (codeSize l)) : place base l a = none := by
  induction l generalizing base with
  | nil => rfl
  | cons i l ih =>
    have hpos := i.size_pos
    have hne : a ≠ base := by
      rintro rfl
      exact h (Bytes.mem_span_bitVec.mpr
        ⟨0, by rw [codeSize_cons]; omega, (BitVec.add_zero a).symm⟩)
    rw [place, if_neg hne]
    refine ih fun hmem => h ?_
    obtain ⟨j, -, hj, rfl⟩ := mem_span_tail hmem
    exact Bytes.mem_span_bitVec.mpr ⟨j, hj, rfl⟩

theorem codeAt_of_place (hsize : codeSize l ≤ 2 ^ 64)
    (h : ∀ a ∈ Bytes.span base (codeSize l), p.outside a = none ∧ p.fetch a = place base l a) :
    CodeAt p base l := by
  induction l generalizing base with
  | nil => trivial
  | cons i l ih =>
    have hpos := i.size_pos
    have hsize' := hsize
    rw [codeSize_cons] at hsize'
    obtain ⟨hout, hfetch⟩ := h base
      (Bytes.mem_span_bitVec.mpr ⟨0, by rw [codeSize_cons]; omega, (BitVec.add_zero base).symm⟩)
    refine ⟨⟨hout, hfetch.trans (if_pos rfl)⟩, ih (by omega) fun a ha => ?_⟩
    obtain ⟨j, hpos, hj, rfl⟩ := mem_span_tail ha
    obtain ⟨hout, hfetch⟩ := h _ (Bytes.mem_span_bitVec.mpr ⟨j, hj, rfl⟩)
    have hne : base + BitVec.ofNat 64 j ≠ base := fun heq => by
      have hzero := offset_inj (by omega) (by omega) (heq.trans (BitVec.add_zero base).symm)
      omega
    exact ⟨hout, hfetch.trans (if_neg hne)⟩

theorem CodeAt.append (h : CodeAt p a (l ++ rest)) :
    CodeAt p a l ∧ CodeAt p (a + BitVec.ofNat 64 (codeSize l)) rest := by
  induction l generalizing a with
  | nil => exact ⟨trivial, by simpa [codeSize] using h⟩
  | cons i l ih =>
    obtain ⟨hhead, htail⟩ := ih h.2
    refine ⟨⟨h.1, hhead⟩, ?_⟩
    rwa [codeSize_cons, BitVec.ofNat_add, ← BitVec.add_assoc]

theorem resume_cons (h : CodeAt p s.rip (i :: l)) (hi : i ≠ .iretq) (n : Nat) :
    resume cpu p (n + 1) s = resume cpu p n (exec cpu i s) := by
  rw [resume, h.1.1, h.1.2]
  cases i with
  | iretq => exact absurd rfl hi
  | _ => rfl

theorem resume_iretq (h : CodeAt p s.rip (.iretq :: l)) (n : Nat) :
    resume cpu p (n + 1) s = some (exec cpu .iretq s) := by
  rw [resume, h.1.1, h.1.2]

theorem resume_outside {f : State → State} (h : p.outside s.rip = some f) (n : Nat) :
    resume cpu p (n + 1) s = resume cpu p n (f s) := by
  rw [resume, h]

theorem resume_mono (h : resume cpu p n s = some t) (hle : n ≤ k) : resume cpu p k s = some t := by
  induction n generalizing k s with
  | zero => exact nomatch h
  | succ n ih =>
    obtain ⟨k, rfl⟩ : ∃ k', k = k' + 1 := ⟨k - 1, by omega⟩
    rw [resume] at h ⊢
    split at h
    · exact ih h (by omega)
    split at h
    · exact nomatch h
    · exact h
    · exact ih h (by omega)

theorem exec_rip (h : i.Plain) : (exec cpu i s).rip = s.rip + BitVec.ofNat 64 i.size := by
  cases i with
  | call | ret | iretq => exact absurd h id
  | _ => rfl

theorem run_rip (h : ∀ i ∈ l, i.Plain) :
    (run cpu l s).rip = s.rip + BitVec.ofNat 64 (codeSize l) := by
  induction l generalizing s with
  | nil => exact (BitVec.add_zero _).symm
  | cons i l ih =>
    obtain ⟨hi, hl⟩ := List.forall_mem_cons.mp h
    have hrest := ih (s := exec cpu i s) hl
    rw [exec_rip hi, BitVec.add_assoc, ← BitVec.ofNat_add, ← codeSize_cons] at hrest
    exact hrest

theorem resume_run (hcode : CodeAt p s.rip l) (h : ∀ i ∈ l, i.Plain) (n : Nat) :
    resume cpu p (n + l.length) s = resume cpu p n (run cpu l s) := by
  induction l generalizing s with
  | nil => rfl
  | cons i l ih =>
    obtain ⟨hi, hl⟩ := List.forall_mem_cons.mp h
    have hne : i ≠ .iretq := by
      rintro rfl
      exact hi
    have htail : CodeAt p (exec cpu i s).rip l := by
      rw [exec_rip hi]
      exact hcode.2
    rw [List.length_cons, ← Nat.add_assoc, resume_cons hcode hne, ih htail hl]
    rfl

theorem run_cons (cpu : Cpu) (i : Instr) (l : List Instr) (s : State) :
    run cpu (i :: l) s = run cpu l (exec cpu i s) := rfl

theorem run_append (cpu : Cpu) (l rest : List Instr) (s : State) :
    run cpu (l ++ rest) s = run cpu rest (run cpu l s) := List.foldl_append

theorem State.push_eq (h : s.reg .rsp = addr base (k + 1)) (v : BitVec 64) :
    s.push v = { s with
      reg := update s.reg .rsp (addr base k)
      mem := write s.mem (addr base k) v } := by
  rw [State.push, h, addr_pred]

theorem State.drop_eq (h : s.reg .rsp = addr base k) :
    s.drop = { s with reg := update s.reg .rsp (addr base (k + 1)) } := by
  rw [State.drop, h, addr_succ]

theorem State.top_eq (h : s.reg .rsp = addr base k) : s.top = read s.mem (addr base k) := by
  rw [State.top, h]

theorem exec_call (h : s.reg .rsp = addr base (k + 1)) (target : BitVec 64) :
    exec cpu (.call target) s = { s with
      rip := target
      reg := update s.reg .rsp (addr base k)
      mem := write s.mem (addr base k) (s.rip + BitVec.ofNat 64 (Instr.call target).size) } := by
  have hpush := State.push_eq
    (s := { s with rip := s.rip + BitVec.ofNat 64 (Instr.call target).size }) h
  exact congrArg (fun u => { u with rip := target }) (hpush _)

theorem exec_ret (h : s.reg .rsp = addr base k) :
    exec cpu .ret s = { s with
      rip := read s.mem (addr base k)
      reg := update s.reg .rsp (addr base (k + 1)) } := by
  rw [exec, State.drop_eq h, State.top_eq h]

theorem exec_iretq (h : s.reg .rsp = addr base k) :
    exec cpu .iretq s = { s with
      rip := read s.mem (addr base k)
      cs := (read s.mem (addr base (k + 1))).setWidth 16
      rflags := read s.mem (addr base (k + 2))
      reg := update s.reg .rsp (read s.mem (addr base (k + 3)))
      ss := (read s.mem (addr base (k + 4))).setWidth 16 } := by
  simp only [exec, State.top, State.drop, update_self, h, addr_succ]

theorem run_push (hrsp : .rsp ∉ rs) (h : s.reg .rsp = addr base k) (hlen : rs.length ≤ k) :
    run cpu (rs.map .push) s = { s with
      rip := s.rip + BitVec.ofNat 64 (codeSize (rs.map .push))
      reg := update s.reg .rsp (addr base (k - rs.length))
      mem := pushes base k (rs.map s.reg) s.mem } := by
  induction rs generalizing s k with
  | nil =>
    rw [List.length_nil, Nat.sub_zero, ← h, update_eq_self]
    exact congrArg (fun rip => { s with rip := rip }) (BitVec.add_zero s.rip).symm
  | cons r rs ih =>
    obtain ⟨hr, hrs⟩ := not_or.mp (mt List.mem_cons.mpr hrsp)
    obtain ⟨k, rfl⟩ : ∃ k', k = k' + 1 := ⟨k - 1, by rw [List.length_cons] at hlen; omega⟩
    have hfirst : exec cpu (.push r) s = { s with
        rip := s.rip + BitVec.ofNat 64 (Instr.push r).size
        reg := update s.reg .rsp (addr base k)
        mem := write s.mem (addr base k) (s.reg r) } :=
      State.push_eq (s := { s with rip := s.rip + BitVec.ofNat 64 (Instr.push r).size }) h (s.reg r)
    have hregs : rs.map (update s.reg .rsp (addr base k)) = rs.map s.reg :=
      List.map_congr_left fun q hq => update_of_ne (by rintro rfl; exact hrs hq) ..
    have hrest := ih (s := exec cpu (.push r) s) hrs (by rw [hfirst]; simp only [update_self])
      (Nat.le_of_succ_le_succ hlen)
    rw [hfirst] at hrest
    simp only [update_idem, hregs, BitVec.add_assoc, ← BitVec.ofNat_add] at hrest
    rw [List.map_cons, codeSize_cons, List.length_cons, Nat.add_sub_add_right]
    show run cpu (rs.map .push) (exec cpu (.push r) s) = _
    rw [hfirst, hrest]
    rfl

theorem run_pop {old : Reg → BitVec 64} (hrsp : .rsp ∉ rs) (h : s.reg .rsp = addr base k)
    (hslots : ∀ i r, rs[i]? = some r → read s.mem (addr base (k + i)) = old r) :
    run cpu (rs.map .pop) s = { s with
      rip := s.rip + BitVec.ofNat 64 (codeSize (rs.map .pop))
      reg := update (fun r => if r ∈ rs then old r else s.reg r) .rsp
        (addr base (k + rs.length)) } := by
  induction rs generalizing s k with
  | nil =>
    have hreg : update (fun r => if r ∈ [] then old r else s.reg r) .rsp (addr base (k + 0)) =
        s.reg := by
      simp only [List.not_mem_nil, if_false, Nat.add_zero, ← h, update_eq_self]
    rw [List.length_nil, hreg]
    exact congrArg (fun rip => { s with rip := rip }) (BitVec.add_zero s.rip).symm
  | cons r rs ih =>
    obtain ⟨hr, hrs⟩ := not_or.mp (mt List.mem_cons.mpr hrsp)
    have hvalue : s.top = old r := (State.top_eq h).trans (hslots 0 r rfl)
    have hfirst : exec cpu (.pop r) s = { s with
        rip := s.rip + BitVec.ofNat 64 (Instr.pop r).size
        reg := update (update s.reg .rsp (addr base (k + 1))) r (old r) } := by
      rw [exec, hvalue]
      simp only [State.drop, h, addr_succ]
    have hrest := ih (s := exec cpu (.pop r) s) (k := k + 1) hrs
      (by rw [hfirst]; simp only [update_of_ne hr, update_self])
      (fun i q hq => by
        rw [hfirst, Nat.add_assoc, Nat.add_comm 1]
        exact hslots (i + 1) q hq)
    rw [hfirst] at hrest
    -- a later pop leaves `r` alone, or gives it the same value again
    have hreg : update (fun q => if q ∈ rs then old q else
        update (update s.reg .rsp (addr base (k + 1))) r (old r) q) .rsp
          (addr base (k + 1 + rs.length)) =
        update (fun q => if q ∈ r :: rs then old q else s.reg q) .rsp
          (addr base (k + (rs.length + 1))) := by
      rw [Nat.add_assoc, Nat.add_comm 1]
      funext q
      by_cases hq : q = .rsp
      · rw [hq, update_self, update_self]
      rw [update_of_ne hq, update_of_ne hq]
      by_cases hqr : q = r
      · rw [hqr, update_self, if_pos (List.mem_cons_self ..), ite_self]
      · rw [update_of_ne hqr, update_of_ne hq]
        simp only [List.mem_cons, hqr, false_or]
    simp only [BitVec.add_assoc, ← BitVec.ofNat_add] at hrest
    rw [List.map_cons, codeSize_cons, List.length_cons, ← hreg]
    show run cpu (rs.map .pop) (exec cpu (.pop r) s) = _
    rw [hfirst, hrest]

end X86
