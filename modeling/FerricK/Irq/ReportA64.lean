import FerricK.Irq.Report

namespace FerricK.Vectors

open Template
open scoped A64

def kindName (kind : BitVec 64) : String :=
  if kind = 0 then "SYNC" else if kind = 1 then "IRQ" else if kind = 2 then "FIQ" else "SERROR"

def registerItems (f : ExceptionFrame) (n : Nat) : List Item :=
  .text (toString n) :: (if n < 10 then [.text " "] else []) ++
    [.text "=", hex 16 (f.x (Fin.ofNat 31 n))]

def lineItems (f : ExceptionFrame) (start : Nat) : List Item :=
  .text "  X" :: registerItems f start ++
    .text " X" :: registerItems f (start + 1) ++
    .text " X" :: registerItems f (start + 2) ++
    .text " X" :: registerItems f (start + 3) ++ [.text "\n"]

def headItems (f : ExceptionFrame) : List Item := [
  .text "EXCEPTION: kind ", .text (kindName f.kind), .text ", ESR 0x", hex 8 f.esr,
  .text " (EC ", .text "0x", hex 0 (f.esr >>> 26 &&& 0x3F), .text ")\n"]

def tailItems (f : ExceptionFrame) : List Item := [
  .text "  X28=", hex 16 (f.x 28), .text " X29=", hex 16 (f.x 29),
  .text " X30=", hex 16 (f.x 30), .text "\n",
  .text "  SP =", hex 16 f.sp, .text " ELR=", hex 16 f.elr,
  .text " SPSR=", hex 8 f.spsr, .text "\n",
  .text "  ESR=", hex 16 f.esr, .text " FAR=", hex 16 f.far, .text "\n",
  .text "KERNEL HALT\n", .text "---\n"]

/-- `(0..28).step_by(4)`. -/
def lineStarts : List Nat := [0, 4, 8, 12, 16, 20, 24]

def exceptionItems (f : ExceptionFrame) : List Item :=
  headItems f ++ lineStarts.flatMap (lineItems f) ++ tailItems f

def exceptionPieces (f : ExceptionFrame) : List (List Char) :=
  ((exceptionItems f).flatMap Item.pieces).tail

def zeros (kind : BitVec 64) : ExceptionFrame where
  x _ := 0
  sp := 0
  elr := 0
  spsr := 0
  esr := 0
  far := 0
  kind := kind

def frameOf (kind : BitVec 64) (ns : List Nat) : ExceptionFrame where
  x i := .ofNat 64 (ns.getD (2 + i) 0)
  sp := .ofNat 64 (ns.getD 33 0)
  elr := .ofNat 64 (ns.getD 34 0)
  spsr := .ofNat 64 (ns.getD 35 0)
  esr := .ofNat 64 (ns.getD 36 0)
  far := .ofNat 64 (ns.getD 37 0)
  kind := kind

def kindOf (name : List Char) : Option (BitVec 64) :=
  [0, 1, 2, 3].find? fun kind => (kindName kind).toList = name

def readException (text : List Char) : Option ExceptionFrame := do
  let kind ← kindOf ((text.drop 16).takeWhile (· ≠ ','))
  let (ns, _) ← scan ((exceptionItems (zeros kind)).map Item.hole) text
  return frameOf kind ns

def shownKind (kind : BitVec 64) : BitVec 64 := if kind = 0 ∨ kind = 1 ∨ kind = 2 then kind else 3

theorem kind_cases (kind : BitVec 64) : shownKind kind = 0 ∧ kindName kind = "SYNC" ∨
    shownKind kind = 1 ∧ kindName kind = "IRQ" ∨ shownKind kind = 2 ∧ kindName kind = "FIQ" ∨
    shownKind kind = 3 ∧ kindName kind = "SERROR" := by
  by_cases h₀ : kind = 0
  · subst h₀
    exact Or.inl ⟨rfl, rfl⟩
  by_cases h₁ : kind = 1
  · subst h₁
    exact Or.inr (Or.inl ⟨rfl, rfl⟩)
  by_cases h₂ : kind = 2
  · subst h₂
    exact Or.inr (Or.inr (Or.inl ⟨rfl, rfl⟩))
  · refine Or.inr (Or.inr (Or.inr ⟨if_neg (by tauto), ?_⟩))
    rw [kindName, if_neg h₀, if_neg h₁, if_neg h₂]

theorem kindName_shownKind (kind : BitVec 64) : kindName (shownKind kind) = kindName kind := by
  rcases kind_cases kind with ⟨h, hname⟩ | ⟨h, hname⟩ | ⟨h, hname⟩ | ⟨h, hname⟩ <;>
  · rw [h, hname]
    rfl

theorem kindOf_kindName (kind : BitVec 64) :
    kindOf (kindName kind).toList = some (shownKind kind) ∧ ',' ∉ (kindName kind).toList := by
  rcases kind_cases kind with ⟨h, hname⟩ | ⟨h, hname⟩ | ⟨h, hname⟩ | ⟨h, hname⟩ <;>
  · rw [h, hname]
    exact ⟨rfl, by decide⟩

def registers (f : ExceptionFrame) : List Nat :=
  (List.range 31).map fun i => (f.x (Fin.ofNat 31 i)).toNat

theorem numbers_registerItems (f : ExceptionFrame) (n : Nat) :
    (registerItems f n).flatMap Item.numbers = [(f.x (Fin.ofNat 31 n)).toNat] := by
  unfold registerItems
  split <;> rfl

theorem numbers_exceptionItems (f : ExceptionFrame) :
    (exceptionItems f).flatMap Item.numbers = [f.esr.toNat, (f.esr >>> 26 &&& 0x3F).toNat] ++
      (registers f ++ [f.sp.toNat, f.elr.toNat, f.spsr.toNat, f.esr.toNat, f.far.toNat]) := by
  simp only [exceptionItems, headItems, tailItems, lineStarts, lineItems, List.flatMap_append,
    List.flatMap_cons, List.flatMap_nil, numbers_registerItems]
  rfl

theorem frameOf_numbers (f : ExceptionFrame) (kind : BitVec 64) :
    frameOf kind ((exceptionItems f).flatMap Item.numbers) = { f with kind := kind } := by
  have hx : ∀ i : Fin 31, ((exceptionItems f).flatMap Item.numbers).getD (2 + i) 0 =
      (f.x i).toNat := by
    intro i
    have hlen : i.val < (registers f).length := by simp [registers]
    rw [numbers_exceptionItems, List.getD_eq_getElem?_getD, Nat.add_comm]
    simp only [List.cons_append, List.nil_append, List.getElem?_cons_succ]
    rw [List.getElem?_append_left hlen]
    simp [registers]
  simp only [frameOf, hx, BitVec.ofNat_toNat, BitVec.setWidth_eq]
  rw [numbers_exceptionItems]
  simp [registers]

theorem within_registerItems (f : ExceptionFrame) (n : Nat) :
    ∀ i ∈ registerItems f n, i.Within 16 := by
  have hhex : ∀ v, (hex 16 v).Within 16 := fun v => ⟨by decide, by decide, by decide, v.isLt⟩
  unfold registerItems
  split <;> simp [Item.within_text, hhex]

theorem within_exceptionItems (f : ExceptionFrame) : ∀ i ∈ exceptionItems f, i.Within 16 := by
  have hhex : ∀ w ≤ 16, ∀ v, (hex w v).Within 16 :=
    fun _ hw v => ⟨by decide, by decide, hw, v.isLt⟩
  have hline : ∀ start, ∀ i ∈ lineItems f start, i.Within 16 := by
    intro start i hi
    simp only [lineItems, List.cons_append, List.mem_cons, List.mem_append, List.append_assoc,
      List.not_mem_nil, or_false] at hi
    rcases hi with rfl | hi | rfl | hi | rfl | hi | rfl | hi | rfl
    all_goals first | exact Item.within_text _ _ | exact within_registerItems f _ i hi
  simp only [exceptionItems, List.forall_mem_append]
  refine ⟨⟨?_, ?_⟩, ?_⟩
  · simp [headItems, Item.within_text, hhex]
  · intro i hi
    obtain ⟨start, -, hi⟩ := List.mem_flatMap.mp hi
    exact hline start i hi
  · simp [tailItems, Item.within_text, hhex]

def bodyHoles : List Hole := ((exceptionItems (zeros 0)).map Item.hole).drop 2

theorem holes_exceptionItems (f : ExceptionFrame) : (exceptionItems f).map Item.hole =
    .text "EXCEPTION: kind " :: .text (kindName f.kind) :: bodyHoles := by
  have hregister : ∀ n, (registerItems f n).map Item.hole =
      (registerItems (zeros 0) n).map Item.hole := by
    intro n
    unfold registerItems
    split <;> rfl
  simp only [bodyHoles, exceptionItems, headItems, tailItems, lineStarts, lineItems,
    List.map_append, List.map_cons, List.flatMap_cons, List.flatMap_nil, hregister, List.map_nil,
    hex, Item.hole]
  rfl

theorem delimited_exceptionItems (f : ExceptionFrame) :
    Delimited ((exceptionItems f).map Item.hole) := by
  have hbody : Delimited bodyHoles := by decide +kernel
  rw [holes_exceptionItems]
  exact hbody

theorem written_exceptionItems (f : ExceptionFrame) :
    written 1024 (exceptionItems f) = print (exceptionItems f) ∧
      (asBytes (print (exceptionItems f))).length ≤ 1024 := by
  have hname : (Hole.text (kindName f.kind)).Ascii ∧ (kindName f.kind).toList.length ≤ 6 := by
    rcases kind_cases f.kind with ⟨-, h⟩ | ⟨-, h⟩ | ⟨-, h⟩ | ⟨-, h⟩ <;>
    · rw [h]
      decide
  have hhead : ("EXCEPTION: kind ".toList).length = 16 := rfl
  have hbody : room 16 bodyHoles ≤ 1000 := by decide +kernel
  have hascii : ∀ h ∈ bodyHoles, h.Ascii := by decide +kernel
  refine written_eq (within_exceptionItems f) ?_ (by decide) ?_
  · rw [holes_exceptionItems]
    refine List.forall_mem_cons.mpr ⟨by decide, List.forall_mem_cons.mpr ⟨hname.1, hascii⟩⟩
  · rw [holes_exceptionItems]
    simp only [room, hhead]
    omega

theorem readException_print (f : ExceptionFrame) :
    readException (print (exceptionItems f)) = some { f with kind := shownKind f.kind } := by
  obtain ⟨hkind, hcomma⟩ := kindOf_kindName f.kind
  obtain ⟨rest, hrest⟩ : ∃ rest, print (exceptionItems f) =
      "EXCEPTION: kind ".toList ++ ((kindName f.kind).toList ++ ',' :: rest) :=
    ⟨_, rfl⟩
  have hhead : ("EXCEPTION: kind ".toList).length = 16 := rfl
  have hname : ((print (exceptionItems f)).drop 16).takeWhile (· ≠ ',') =
      (kindName f.kind).toList := by
    have hall : ∀ c ∈ (kindName f.kind).toList, decide (c ≠ ',') := by
      rintro c hc
      exact decide_eq_true fun h => hcomma (h ▸ hc)
    rw [hrest, ← hhead, List.drop_left, List.takeWhile_append_of_pos hall,
      List.takeWhile_cons_of_neg (by simp), List.append_nil]
  have hholes : (exceptionItems (zeros (shownKind f.kind))).map Item.hole =
      (exceptionItems f).map Item.hole := by
    rw [holes_exceptionItems, holes_exceptionItems, zeros, kindName_shownKind]
  have hscan := scan_print (fun i hi => (within_exceptionItems f i hi).isBase)
    (delimited_exceptionItems f) []
  rw [List.append_nil] at hscan
  rw [readException, hname, hkind]
  simp only [Option.bind_eq_bind, Option.bind_some, hholes, hscan, frameOf_numbers]
  rfl

theorem formatException_exceptionPieces (f : ExceptionFrame) :
    Crash.formatException .aarch64 (exceptionPieces f) = written 1024 (exceptionItems f) := rfl

/-- Where the port can be had, no byte of a report is dropped, and what reaches it tells the
frame, up to the kinds past `SERROR`. -/
theorem dump_tells_frame (f : ExceptionFrame) (k : Crash.Kernel) (hinit : k.serialInit = true)
    (hfree : k.held .serial = false) :
    ∃ k' text, Crash.dump .aarch64 k (.exception (exceptionPieces f) []) = .ok k' ∧
      k'.sent = k.sent ++ Crash.expandLfToCrlf text ∧
      text = print (exceptionItems f) ∧ (asBytes text).length ≤ 1024 ∧
      readException text = some { f with kind := shownKind f.kind } := by
  obtain ⟨hwritten, hlen⟩ := written_exceptionItems f
  have hdump := Crash.exceptionCommon_aarch64 (exceptionPieces f) [] k
  rw [if_pos hinit, if_neg (by simp [hfree]), formatException_exceptionPieces, hwritten] at hdump
  exact ⟨_, _, hdump, rfl, rfl, hlen, readException_print f⟩

/-- A kernel that is up, with no lock held, and a frame of zeros whose kind has no name. -/
theorem dump_tells_frame_zeros :
    ∃ k' text, Crash.dump .aarch64 { Crash.insidePrint with held := fun _ => false }
      (.exception (exceptionPieces (zeros 7)) []) = .ok k' ∧
      k'.sent = [] ++ Crash.expandLfToCrlf text ∧ text = print (exceptionItems (zeros 7)) ∧
      (asBytes text).length ≤ 1024 ∧ readException text = some (zeros 3) :=
  dump_tells_frame (zeros 7) { Crash.insidePrint with held := fun _ => false } rfl rfl

end FerricK.Vectors
