import FerricK.Irq.Stub
import FerricK.Lib.Align

/-! What the interrupted code finds changed.  The trampoline keeps `rsp` and `rdi` in `r12` and
`r13`, which the stub does not save. -/

namespace FerricK.Irq

open Function Stack X86

def hardwareFrame (s : State) : List (BitVec 64) :=
  [s.ss.setWidth 64, s.reg .rsp, s.rflags, s.cs.setWidth 64, s.rip]

def Image.stubReturn (img : Image) : BitVec 64 :=
  img.stub + BitVec.ofNat 64 (codeSize prologue) + BitVec.ofNat 64 (Instr.call img.wrapper).size

def Image.wrapperReturn (img : Image) : BitVec 64 :=
  img.wrapper + BitVec.ofNat 64 (codeSize entry) + BitVec.ofNat 64 (Instr.call img.common).size

def frame (img : Image) (s : State) : List (BitVec 64) :=
  hardwareFrame s ++ (0 :: 0x20 :: saved.reverse.map s.reg) ++ [img.stubReturn]

structure Entered (img : Image) (s e : State) : Prop where
  rip : e.rip = img.common
  rsp : e.reg .rsp = frameBase s
  r12 : e.reg .r12 = addr (frameBase s) 2
  r13 : e.reg .r13 = addr (frameBase s) 3
  reg : ∀ r ∈ calleeSaved, r ≠ .r12 → r ≠ .r13 → e.reg r = s.reg r
  mem : e.mem = write (pushes (frameBase s) 19 (frame img s) s.mem) (frameBase s) img.wrapperReturn

structure Resumed (m : Mem) (s t : State) : Prop where
  reg : t.reg = update (update s.reg .r12 (addr (frameBase s) 2)) .r13 (addr (frameBase s) 3)
  rip : t.rip = s.rip
  rflags : t.rflags = s.rflags
  mem : t.mem = m

variable {cpu : Cpu} {selector : BitVec 16} {img : Image} {f : State → State} {s t e : State}
  {base a v : BitVec 64} {i k n : Nat}

theorem toNat_align (x : BitVec 64) : (x &&& ~~~15).toNat = x.toNat / 16 * 16 := by
  rw [BitVec.toNat_and]
  exact Align.and_unot_mask (w := 64) (k := 4) x.isLt (by decide)

theorem addr_frameBase (s : State) : s.reg .rsp &&& ~~~15 = addr (frameBase s) 19 :=
  (BitVec.sub_add_cancel _ _).symm

theorem toNat_frameBase (s : State) :
    (frameBase s).toNat = ((s.reg .rsp).toNat / 16 * 16 + (2 ^ 64 - 152)) % 2 ^ 64 := by
  rw [frameBase, BitVec.toNat_sub, toNat_align, Nat.add_comm]
  rfl

theorem frameBase_align (s : State) :
    addr (frameBase s) 2 &&& (-16 : BitVec 8).signExtend 64 = addr (frameBase s) 1 := by
  apply BitVec.eq_of_toNat_eq
  show (addr (frameBase s) 2 &&& ~~~15).toNat = _
  rw [toNat_align, addr, addr, BitVec.toNat_add, BitVec.toNat_add, toNat_frameBase]
  simp only [BitVec.toNat_ofNat]
  omega

theorem interrupt_eq (cpu : Cpu) (selector : BitVec 16) (entry : BitVec 64) (s : State) :
    interrupt cpu selector entry s =
      { reg := update s.reg .rsp (addr (frameBase s) 14)
        rip := entry
        rflags := cpu.interruptFlags s.rflags
        cs := selector
        ss := s.ss
        mem := pushes (frameBase s) 19 (hardwareFrame s) s.mem } := by
  simp only [interrupt, State.push, addr_frameBase, addr_pred, update_self, update_idem]
  rfl

theorem run_pushImm (h : s.reg .rsp = addr base (k + 2)) :
    run cpu [.pushImm 0, .pushImm 0x20] s = { s with
      rip := s.rip + BitVec.ofNat 64 (codeSize [.pushImm 0, .pushImm 0x20])
      reg := update s.reg .rsp (addr base k)
      mem := pushes base (k + 2) [0, 0x20] s.mem } := by
  simp only [run, List.foldl_cons, List.foldl_nil, exec, State.push, h, addr_pred, update_self,
    update_idem, BitVec.add_assoc]
  rfl

theorem run_prologue (h : s.reg .rsp = addr base 14) :
    run cpu prologue s = { s with
      rip := s.rip + BitVec.ofNat 64 (codeSize prologue)
      reg := update (update s.reg .rdi (addr base 3)) .rsp (addr base 3)
      mem := pushes base 14 (0 :: 0x20 :: saved.reverse.map s.reg) s.mem } := by
  have hregs : saved.reverse.map (update s.reg .rsp (addr base 12)) = saved.reverse.map s.reg :=
    List.map_congr_left fun r hr => update_of_ne (by rintro rfl; exact absurd hr (by decide)) ..
  have hrsp : update s.reg .rsp (addr base 12) .rsp = addr base 12 := update_self ..
  have hcomm : update (update s.reg .rdi (addr base 3)) .rsp (addr base 3) =
      update (update s.reg .rsp (addr base 3)) .rdi (addr base 3) := update_comm (by decide) ..
  rw [prologue, run_append, run_append, run_pushImm h, run_push (by decide) hrsp (by decide), hregs,
    hcomm]
  simp only [run, List.foldl_cons, List.foldl_nil, exec, update_self, update_idem,
    BitVec.add_assoc]
  rfl

theorem run_entry (h : t.reg .rsp = addr (frameBase s) 2) :
    ∃ flags, run cpu entry t = { t with
      rip := t.rip + BitVec.ofNat 64 (codeSize entry)
      rflags := flags
      reg := update (update (update t.reg .r12 (addr (frameBase s) 2)) .r13 (t.reg .rdi)) .rsp
        (addr (frameBase s) 1) } := by
  have hrdi : update t.reg .r12 (addr (frameBase s) 2) .rdi = t.reg .rdi :=
    update_of_ne (by decide) ..
  have hrsp : update (update t.reg .r12 (addr (frameBase s) 2)) .r13 (t.reg .rdi) .rsp =
      addr (frameBase s) 2 := by
    rw [update_of_ne (by decide), update_of_ne (by decide), h]
  refine ⟨(run cpu entry t).rflags, ?_⟩
  simp only [run, entry, List.foldl_cons, List.foldl_nil, exec, h, hrdi, hrsp, frameBase_align,
    BitVec.add_assoc]
  rfl

def trampoline (cpu : Cpu) (selector : BitVec 16) (img : Image) (s : State) : State where
  reg := update (update s.reg .rdi (addr (frameBase s) 3)) .rsp (addr (frameBase s) 2)
  rip := img.wrapper
  rflags := cpu.interruptFlags s.rflags
  cs := selector
  ss := s.ss
  mem := pushes (frameBase s) 19 (frame img s) s.mem

theorem call_trampoline (cpu : Cpu) (selector : BitVec 16) (img : Image) (s : State) :
    exec cpu (.call img.wrapper) (run cpu prologue (interrupt cpu selector img.stub s)) =
      trampoline cpu selector img s := by
  have hrsp : (interrupt cpu selector img.stub s).reg .rsp = addr (frameBase s) 14 := by
    rw [interrupt_eq]
    simp only [update_self]
  have hregs : saved.reverse.map (update s.reg .rsp (addr (frameBase s) 14)) =
      saved.reverse.map s.reg :=
    List.map_congr_left fun r hr => update_of_ne (by rintro rfl; exact absurd hr (by decide)) ..
  rw [run_prologue hrsp, interrupt_eq]
  refine (exec_call (k := 2) (?_ : _ = addr (frameBase s) 3) _).trans ?_
  · simp only [update_self]
  have hcomm : update (update s.reg .rsp (addr (frameBase s) 14)) .rdi (addr (frameBase s) 3) =
      update (update s.reg .rdi (addr (frameBase s) 3)) .rsp (addr (frameBase s) 14) :=
    update_comm (by decide) ..
  rw [trampoline, frame, pushes_append, pushes_append, hregs]
  simp only [hcomm, update_idem]
  rfl

theorem resume_to_trampoline (cpu : Cpu) (selector : BitVec 16) (img : Image) (f : State → State)
    (s : State) (n : Nat) :
    resume cpu (img.program f) (n + 1 + prologue.length) (interrupt cpu selector img.stub s) =
      resume cpu (img.program f) n (trampoline cpu selector img s) := by
  have hcode := img.codeAt_stub f
  rw [irqStubIrq0_eq] at hcode
  obtain ⟨hprologue, hcall⟩ := hcode.append
  have hplain : ∀ i ∈ prologue, i.Plain := by decide
  have hrip : (run cpu prologue (interrupt cpu selector img.stub s)).rip =
      img.stub + BitVec.ofNat 64 (codeSize prologue) := run_rip hplain
  rw [← hrip] at hcall
  rw [resume_run (l := prologue) hprologue hplain, resume_cons hcall (by simp), call_trampoline]

def handlerEntry (cpu : Cpu) (selector : BitVec 16) (img : Image) (s : State) : State :=
  exec cpu (.call img.common) (run cpu entry (trampoline cpu selector img s))

theorem entered (cpu : Cpu) (selector : BitVec 16) (img : Image) (s : State) :
    Entered img s (handlerEntry cpu selector img s) := by
  have hrsp : (trampoline cpu selector img s).reg .rsp = addr (frameBase s) 2 := by
    simp only [trampoline, update_self]
  obtain ⟨flags, hentry⟩ := run_entry hrsp
  have hrsp₁ : (run cpu entry (trampoline cpu selector img s)).reg .rsp =
      addr (frameBase s) 1 := by
    rw [hentry]
    simp only [update_self]
  have hcall : handlerEntry cpu selector img s = _ := exec_call (k := 0) hrsp₁ img.common
  rw [hentry] at hcall
  have hrdi : (trampoline cpu selector img s).reg .rdi = addr (frameBase s) 3 := by
    simp only [trampoline, update_self, update_of_ne (by decide : Reg.rdi ≠ .rsp)]
  rw [hrdi] at hcall
  have hreg : ∀ r ∈ calleeSaved, r ≠ .r12 → r ≠ .r13 →
      (handlerEntry cpu selector img s).reg r = s.reg r := by
    intro r hr h₁₂ h₁₃
    have hothers : ∀ r ∈ calleeSaved, r ≠ .rsp ∧ r ≠ .rdi := by decide
    obtain ⟨hrsp, hrdi⟩ := hothers r hr
    simp only [hcall, trampoline, update_of_ne hrsp, update_of_ne h₁₂, update_of_ne h₁₃,
      update_of_ne hrdi]
  refine { rip := ?_, rsp := ?_, r12 := ?_, r13 := ?_, reg := hreg, mem := ?_ }
  all_goals rw [hcall]
  · simp only [update_self, addr_zero]
  · rfl
  · rfl
  · rw [addr_zero]
    rfl

theorem resume_to_common (cpu : Cpu) (selector : BitVec 16) (img : Image) (f : State → State)
    (s : State) (n : Nat) :
    resume cpu (img.program f) (n + 1 + entry.length + 1 + prologue.length)
        (interrupt cpu selector img.stub s) =
      resume cpu (img.program f) n (handlerEntry cpu selector img s) := by
  have hcode := img.codeAt_wrapper f
  rw [irqHandlerWrapper_eq] at hcode
  obtain ⟨hentry, hcall⟩ := hcode.append
  have hplain : ∀ i ∈ entry, i.Plain := by decide
  have hrip : (run cpu entry (trampoline cpu selector img s)).rip =
      img.wrapper + BitVec.ofNat 64 (codeSize entry) := run_rip hplain
  rw [← hrip] at hcall
  rw [resume_to_trampoline, resume_run (l := entry) hentry hplain, resume_cons hcall (by simp),
    handlerEntry]

theorem frame_saved (img : Image) (s : State) {r : Reg} (hi : saved[i]? = some r) :
    i < 9 ∧ (frame img s)[15 - i]? = some (s.reg r) := by
  have hlt : i < 9 := (List.getElem?_eq_some_iff.mp hi).1
  refine ⟨hlt, ?_⟩
  interval_cases i
  all_goals
    cases hi
    rfl

theorem Entered.read_frame (he : Entered img s e)
    (hmem : ∀ a ∈ Bytes.span (frameBase s) 152, (f e).mem a = e.mem a)
    (hi : (frame img s)[i]? = some v) : read (f e).mem (addr (frameBase s) (18 - i)) = v := by
  have hlt : i < 17 := (List.getElem?_eq_some_iff.mp hi).1
  have hslot : read (f e).mem (addr (frameBase s) (18 - i)) =
      read e.mem (addr (frameBase s) (18 - i)) := by
    refine read_congr fun x hx => hmem x ?_
    obtain ⟨j, -, hj, rfl⟩ := mem_span_addr.mp hx
    exact Bytes.mem_span_bitVec.mpr ⟨j, by omega, rfl⟩
  have hreturn : read e.mem (addr (frameBase s) (18 - i)) =
      read (pushes (frameBase s) 19 (frame img s) s.mem) (addr (frameBase s) (18 - i)) := by
    rw [he.mem]
    nth_rewrite 2 [← addr_zero (frameBase s)]
    exact read_write_of_ne (by omega) (by omega) (by omega)
  rw [hslot, hreturn, show 18 - i = 19 - (i + 1) by omega]
  exact read_pushes (by omega) (Nat.le_of_ble_eq_true rfl) hi

theorem run_epilogue (cpu : Cpu) {old : Reg → BitVec 64} (h : t.reg .rsp = addr base 3)
    (hslots : ∀ i r, saved[i]? = some r → read t.mem (addr base (3 + i)) = old r) :
    ∃ flags, run cpu epilogue t = { t with
      rip := t.rip + BitVec.ofNat 64 (codeSize epilogue)
      rflags := flags
      reg := update (fun r => if r ∈ saved then old r else t.reg r) .rsp (addr base 14) } := by
  refine ⟨(run cpu epilogue t).rflags, ?_⟩
  rw [epilogue, run_append, run_pop (by decide) h hslots]
  have hadd : addr base (3 + saved.length) + (16 : BitVec 8).signExtend 64 = addr base 14 := by
    rw [addr, addr, BitVec.add_assoc]
    rfl
  simp only [run, List.foldl_cons, List.foldl_nil, exec, update_self, update_idem,
    BitVec.add_assoc, hadd]
  rfl

def stubExit (img : Image) (s u : State) : State :=
  { u with rip := img.stubReturn, reg := update u.reg .rsp (addr (frameBase s) 3) }

theorem return_to_stub (cpu : Cpu) (hf : Obeys f) (he : Entered img s e)
    (hmem : ∀ a ∈ Bytes.span (frameBase s) 152, (f e).mem a = e.mem a) :
    exec cpu .ret (exec cpu (.mov .rsp .r12) (f e)) = stubExit img s (f e) := by
  have hr12 : (f e).reg .r12 = addr (frameBase s) 2 := (hf.saved e .r12 (by decide)).trans he.r12
  have hrsp : (exec cpu (.mov .rsp .r12) (f e)).reg .rsp = addr (frameBase s) 2 := by
    simp only [exec, update_self, hr12]
  have hreturn : read (f e).mem (addr (frameBase s) 2) = img.stubReturn :=
    he.read_frame (i := 16) hmem rfl
  rw [exec_ret hrsp]
  simp only [exec, hreturn, update_idem, stubExit]

theorem resumed (cpu : Cpu) (hf : Obeys f) (he : Entered img s e)
    (hmem : ∀ a ∈ Bytes.span (frameBase s) 152, (f e).mem a = e.mem a) :
    Resumed (f e).mem s (exec cpu .iretq (run cpu epilogue (stubExit img s (f e)))) := by
  have hrsp : (stubExit img s (f e)).reg .rsp = addr (frameBase s) 3 := by
    simp only [stubExit, update_self]
  have hslots : ∀ i r, saved[i]? = some r →
      read (stubExit img s (f e)).mem (addr (frameBase s) (3 + i)) = s.reg r := by
    intro i r hi
    obtain ⟨hlt, hframe⟩ := frame_saved img s hi
    rw [show 3 + i = 18 - (15 - i) by omega]
    exact he.read_frame hmem hframe
  obtain ⟨flags, hepilogue⟩ := run_epilogue cpu hrsp hslots
  have hrsp₁ : (run cpu epilogue (stubExit img s (f e))).reg .rsp = addr (frameBase s) 14 := by
    rw [hepilogue]
    simp only [update_self]
  have hkept : ∀ r ∈ calleeSaved, r ≠ .r12 → r ≠ .r13 → (f e).reg r = s.reg r :=
    fun r hr h₁₂ h₁₃ => (hf.saved e r hr).trans (he.reg r hr h₁₂ h₁₃)
  rw [exec_iretq hrsp₁, hepilogue]
  refine { reg := ?_, rip := ?_, rflags := ?_, mem := rfl }
  · funext r
    cases r with
    | rsp => exact he.read_frame (i := 1) hmem rfl
    | r12 => exact (hf.saved e .r12 (by decide)).trans he.r12
    | r13 => exact (hf.saved e .r13 (by decide)).trans he.r13
    | rbx | rbp | r14 | r15 => exact hkept _ (by decide) (by decide) (by decide)
    | _ => rfl
  · exact he.read_frame (i := 4) hmem rfl
  · exact he.read_frame (i := 2) hmem rfl

theorem resume_from_common (cpu : Cpu) (hf : Obeys f) (he : Entered img s e)
    (hmem : ∀ a ∈ Bytes.span (frameBase s) 152, (f e).mem a = e.mem a) :
    ∃ t, Resumed (f e).mem s t ∧ resume cpu (img.program f) 14 e = some t := by
  refine ⟨_, resumed cpu hf he hmem, ?_⟩
  have hout : (img.program f).outside e.rip = some f := by
    rw [he.rip]
    exact if_pos rfl
  have hrip : (f e).rip = img.wrapperReturn := by
    rw [hf.rip, State.top, he.rsp, he.mem, read_write_self]
  -- the trampoline
  have hcode := img.codeAt_wrapper f
  rw [irqHandlerWrapper_eq] at hcode
  have hmov : CodeAt (img.program f) (f e).rip [.mov .rsp .r12, .ret] := by
    rw [hrip]
    exact hcode.append.2.2
  have hret : CodeAt (img.program f) (exec cpu (.mov .rsp .r12) (f e)).rip [.ret] := hmov.2
  -- the stub
  have hcode := img.codeAt_stub f
  rw [irqStubIrq0_eq] at hcode
  obtain ⟨hepilogue, hiretq⟩ := hcode.append.2.2.append
  have hplain : ∀ i ∈ epilogue, i.Plain := by decide
  have hend : CodeAt (img.program f) (run cpu epilogue (stubExit img s (f e))).rip [.iretq] := by
    rw [run_rip hplain]
    exact hiretq
  rw [resume_outside hout, resume_cons hmov (by decide), resume_cons hret (by decide),
    return_to_stub cpu hf he hmem]
  show resume cpu _ (1 + epilogue.length) _ = _
  rw [resume_run (l := epilogue) hepilogue hplain]
  exact resume_iretq hend 0

theorem resume_interrupt (cpu : Cpu) (selector : BitVec 16) (img : Image) (hf : Obeys f)
    (hmem : ∀ a ∈ Bytes.span (frameBase s) 152,
      (f (handlerEntry cpu selector img s)).mem a = (handlerEntry cpu selector img s).mem a) :
    ∃ n t, resume cpu (img.program f) n (interrupt cpu selector img.stub s) = some t ∧
      Resumed (f (handlerEntry cpu selector img s)).mem s t := by
  obtain ⟨t, ht, hback⟩ := resume_from_common cpu hf (entered cpu selector img s) hmem
  exact ⟨_, t, (resume_to_common cpu selector img f s 14).trans hback, ht⟩

theorem Entered.mem_of_not_mem (he : Entered img s e) (ha : a ∉ Bytes.span (frameBase s) 152) :
    e.mem a = s.mem a := by
  rw [he.mem, ← addr_zero (frameBase s), write_of_not_mem (n := 19) (by omega), addr_zero]
  · exact pushes_of_not_mem (n := 19) (Nat.le_of_ble_eq_true rfl) le_rfl ha
  · exact ha

theorem rsp_not_mem (s : State) : s.reg .rsp ∉ Bytes.span (frameBase s) 152 := by
  intro hmem
  obtain ⟨i, hi, heq⟩ := Bytes.mem_span_bitVec.mp hmem
  have htoNat := congrArg BitVec.toNat heq
  have hlt := (s.reg .rsp).isLt
  rw [BitVec.toNat_add, toNat_frameBase, BitVec.toNat_ofNat] at htoNat
  omega

def scribble (a : BitVec 64) (s : State) : State :=
  { s.drop with
    rip := s.top
    mem := if a.toNat < (s.reg .rsp).toNat then update s.mem a (s.mem a + 1) else s.mem }

theorem scribble_mem_of_ne {b : BitVec 64} (h : b ≠ a) : (scribble a s).mem b = s.mem b := by
  unfold scribble
  split
  · exact update_of_ne h ..
  · rfl

theorem obeys_scribble (a : BitVec 64) : Obeys (scribble a) where
  rip _ := rfl
  rsp s := by simp only [scribble, State.drop, update_self]
  saved s r hr := update_of_ne (by rintro rfl; exact absurd hr (by decide)) ..
  mem s b hb := by
    unfold scribble
    split
    · exact update_of_ne (by rintro rfl; omega) ..
    · rfl

theorem scribble_mem_self (h : a.toNat < (s.reg .rsp).toNat) :
    (scribble a s).mem a = s.mem a + 1 := by
  simp only [scribble, if_pos h, update_self]

theorem Transparent.scribbled (h : Transparent cpu selector img s) : ∃ t, Unharmed s t ∧
    Resumed (scribble (s.reg .rsp) (handlerEntry cpu selector img s)).mem s t := by
  have hobeys := obeys_scribble (s.reg .rsp)
  have hmem : ∀ a ∈ Bytes.span (frameBase s) 152,
      (scribble (s.reg .rsp) (handlerEntry cpu selector img s)).mem a =
        (handlerEntry cpu selector img s).mem a :=
    fun a ha => scribble_mem_of_ne (by rintro rfl; exact rsp_not_mem s ha)
  obtain ⟨n, t, hback, ht⟩ := resume_interrupt cpu selector img hobeys hmem
  obtain ⟨m, u, hreturn, hu⟩ := h _ hobeys
  have hsome : some t = some u :=
    (resume_mono hback (Nat.le_max_left n m)).symm.trans
      (resume_mono hreturn (Nat.le_max_right n m))
  obtain rfl := Option.some.inj hsome
  exact ⟨t, hu, ht⟩

theorem Transparent.regs (h : Transparent cpu selector img s) :
    s.reg .r12 = addr (frameBase s) 2 ∧ s.reg .r13 = addr (frameBase s) 3 := by
  obtain ⟨t, hu, ht⟩ := h.scribbled
  have hreg := hu.reg.symm.trans ht.reg
  exact ⟨congrFun hreg .r12, congrFun hreg .r13⟩

theorem Transparent.room (h : Transparent cpu selector img s) : 160 ≤ (s.reg .rsp).toNat := by
  obtain ⟨t, hu, ht⟩ := h.scribbled
  have he := entered cpu selector img s
  by_contra hlow
  have hbelow : (s.reg .rsp).toNat < ((handlerEntry cpu selector img s).reg .rsp).toNat := by
    rw [he.rsp, toNat_frameBase]
    omega
  have hbyte := hu.mem (s.reg .rsp) le_rfl
  rw [ht.mem, scribble_mem_self hbelow, he.mem_of_not_mem (rsp_not_mem s)] at hbyte
  exact absurd hbyte (by simp)

theorem not_mem_frame (hroom : 160 ≤ (s.reg .rsp).toNat) (ha : (s.reg .rsp).toNat ≤ a.toNat) :
    a ∉ Bytes.span (frameBase s) 152 := by
  intro hmem
  obtain ⟨i, hi, rfl⟩ := Bytes.mem_span_bitVec.mp hmem
  have hlt := (s.reg .rsp).isLt
  rw [BitVec.toNat_add, toNat_frameBase, BitVec.toNat_ofNat] at ha
  omega

theorem le_of_mem_frame (hroom : 160 ≤ (s.reg .rsp).toNat)
    (ha : a ∈ Bytes.span (frameBase s) 152) : (frameBase s).toNat ≤ a.toNat := by
  obtain ⟨i, hi, rfl⟩ := Bytes.mem_span_bitVec.mp ha
  rw [BitVec.toNat_add, toNat_frameBase, BitVec.toNat_ofNat]
  omega

/-- The timer interrupt goes unnoticed only where `r12` and `r13` happen to hold the addresses
the trampoline puts in them. -/
theorem transparent_iff (cpu : Cpu) (selector : BitVec 16) (img : Image) (s : State) :
    Transparent cpu selector img s ↔
      s.reg .r12 = (s.reg .rsp &&& ~~~15) - 136 ∧ s.reg .r13 = (s.reg .rsp &&& ~~~15) - 128 ∧
        160 ≤ (s.reg .rsp).toNat := by
  have h₁₂ : addr (frameBase s) 2 = (s.reg .rsp &&& ~~~15) - 136 := by
    rw [addr, frameBase]
    bv_omega
  have h₁₃ : addr (frameBase s) 3 = (s.reg .rsp &&& ~~~15) - 128 := by
    rw [addr, frameBase]
    bv_omega
  rw [← h₁₂, ← h₁₃]
  constructor
  · intro h
    exact ⟨h.regs.1, h.regs.2, h.room⟩
  · rintro ⟨hr₁₂, hr₁₃, hroom⟩ f hf
    have he := entered cpu selector img s
    have hkept : ∀ a, (frameBase s).toNat ≤ a.toNat →
        (f (handlerEntry cpu selector img s)).mem a = (handlerEntry cpu selector img s).mem a :=
      fun a ha => hf.mem _ a (by rwa [he.rsp])
    obtain ⟨n, t, hback, ht⟩ := resume_interrupt cpu selector img hf
      fun a ha => hkept a (le_of_mem_frame hroom ha)
    refine ⟨n, t, hback, ?_, ht.rip, ht.rflags, fun a ha => ?_⟩
    · rw [ht.reg, ← hr₁₂, ← hr₁₃, update_eq_self, update_eq_self]
    · have hbase : (frameBase s).toNat ≤ (s.reg .rsp).toNat := by
        rw [toNat_frameBase]
        omega
      rw [ht.mem, hkept a (hbase.trans ha), he.mem_of_not_mem (not_mem_frame hroom ha)]

def packed : Image where
  stub := 0x1000
  wrapper := 0x1040
  common := 0x1060
  apart a hwrapper hstub := by
    obtain ⟨i, hi, rfl⟩ := Bytes.mem_span_bitVec.mp hwrapper
    obtain ⟨j, hj, heq⟩ := Bytes.mem_span_bitVec.mp hstub
    replace hi : i < 19 := hi
    replace hj : j < 44 := hj
    bv_omega
  common_apart := by
    constructor
    all_goals
      intro hmem
      obtain ⟨i, hi, heq⟩ := Bytes.mem_span_bitVec.mp hmem
    · replace hi : i < 44 := hi
      bv_omega
    · replace hi : i < 19 := hi
      bv_omega

def idle : State where
  reg := update (fun _ => 0) .rsp 0x8000
  rip := 0x2000
  rflags := 0x202
  cs := 0x08
  ss := 0x10
  mem _ := 0

theorem idle_clobbered : ¬ Transparent ⟨fun _ s => s.rflags, id⟩ 0x08 packed idle :=
  fun h => absurd h.regs.1 (by decide)

end FerricK.Irq
