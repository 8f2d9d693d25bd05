import FerricK.Crash
import FerricK.Irq.Exceptions
import FerricK.Irq.Vectors
import FerricK.Lib.Template
import FerricK.Monitor.Text

namespace FerricK

open Rust Template

def written (cap : Nat) (items : List Item) : List Char :=
  (items.flatMap Item.pieces).foldl (Crash.bufWriterWriteStr cap) []

def hex (w : Nat) (v : BitVec 64) : Item := .number 16 w v.toNat

namespace Irq

def headItems (f : ExceptionFrame) : List Item := [
  .text "EXCEPTION: vector ", .number 10 0 f.vector.toNat,
  .text ", error code 0x", hex 0 f.errorCode, .text "\n",
  .text "  RAX=", hex 16 f.rax, .text " RCX=", hex 16 f.rcx,
  .text " RDX=", hex 16 f.rdx, .text "\n",
  .text "  RSI=", hex 16 f.rsi, .text " RDI=", hex 16 f.rdi,
  .text " R11=", hex 16 f.r11, .text "\n",
  .text "  R8 =", hex 16 f.r8, .text " R9 =", hex 16 f.r9,
  .text " R10=", hex 16 f.r10, .text "\n",
  .text "  RIP=", hex 16 f.rip, .text " CS=", hex 4 f.cs,
  .text " RFLAGS=", hex 16 f.rflags, .text "\n"]

def cr2Items (cr2 : BitVec 64) : List Item := [.text "  CR2=", hex 16 cr2, .text "\n"]

def haltItems : List Item := [.text "KERNEL HALT\n", .text "---\n"]

def exceptionItems (f : ExceptionFrame) (cr2 : BitVec 64) : List Item :=
  headItems f ++ (if f.vector = 14 then cr2Items cr2 else []) ++ haltItems

def exceptionPieces (f : ExceptionFrame) (cr2 : BitVec 64) : List (List Char) :=
  ((exceptionItems f cr2).flatMap Item.pieces).tail

def frameOf : List Nat → Option ExceptionFrame
  | [vector, errorCode, rax, rcx, rdx, rsi, rdi, r11, r8, r9, r10, rip, cs, rflags] => some {
      rax := .ofNat 64 rax
      rcx := .ofNat 64 rcx
      rdx := .ofNat 64 rdx
      rsi := .ofNat 64 rsi
      rdi := .ofNat 64 rdi
      r8 := .ofNat 64 r8
      r9 := .ofNat 64 r9
      r10 := .ofNat 64 r10
      r11 := .ofNat 64 r11
      vector := .ofNat 64 vector
      errorCode := .ofNat 64 errorCode
      rip := .ofNat 64 rip
      cs := .ofNat 64 cs
      rflags := .ofNat 64 rflags }
  | _ => none

def readException (text : List Char) : Option (ExceptionFrame × Option (BitVec 64)) := do
  let (ns, rest) ← scan ((headItems default).map Item.hole) text
  let f ← frameOf ns
  if f.vector = 14 then
    let (cr2, _) ← scan ((cr2Items 0).map Item.hole) rest
    return (f, cr2.head?.map (BitVec.ofNat 64))
  else return (f, none)

def ramLo : Nat := 0xffff800000000000
def ramHi : Nat := 0xffffffff90000000

def stackItems (word : Nat → BitVec 64) (base offset : Nat) : List Item := [
  .text "  +", .number 16 5 offset,
  .text ": ", hex 16 (word base),
  .text " ", hex 16 (word (base + 8)),
  .text " ", hex 16 (word (base + 16)),
  .text " ", hex 16 (word (base + 24)), .text "\n"]

def stackRows (word : Nat → BitVec 64) (start : Nat) : Nat → Nat → Rust (List (Nat × List Char))
  | 0, _ => return []
  | n + 1, i => do
    let offset ← umul 64 i 32
    let base := (start + offset) % 2 ^ 64
    if base < ramLo then return []
    else if ramHi ≤ (← uadd 64 base 31) then return []
    else
      let row := written 120 (stackItems word base offset)
      return (base, row) :: (← stackRows word start n (i + 1))

def dumpStack (word : Nat → BitVec 64) (start nWords : Nat) : Rust (List (Nat × List Char)) :=
  stackRows word start (nWords / 4) 0

def rspItems (oldRsp : Nat) : List Item := [
  .text "  pre-exception RSP ~= ", .number 16 16 oldRsp, .text "\n"]

/-- What `exception_common` writes after the report; `frame` is where the frame is. -/
def exceptionRows (word : Nat → BitVec 64) (frame : Nat) : Rust (List (List Char)) := do
  let oldRsp ← uadd 64 frame 112
  let rows ← dumpStack word (oldRsp - 16) 144
  return written 64 (rspItems oldRsp) :: rows.map Prod.snd

def readRow (row : List Char) : Option (List Nat) :=
  (scan ((stackItems (fun _ => 0) 0 0).map Item.hole) row).map Prod.fst

def shownRows (start nWords : Nat) : Nat :=
  if start < ramLo then 0 else min (nWords / 4) ((ramHi - start) / 32)

end Irq

theorem foldl_bufWriterWriteStr {cap : Nat} {s : List Char} {pieces : List (List Char)}
    (h : (asBytes (s ++ pieces.flatten)).length ≤ cap) :
    pieces.foldl (Crash.bufWriterWriteStr cap) s = s ++ pieces.flatten := by
  induction pieces generalizing s with
  | nil => simp
  | cons piece pieces ih =>
    rw [List.flatten_cons, ← List.append_assoc] at h ⊢
    have hpiece : (Crash.utf8 s).length + (Crash.utf8 piece).length ≤ cap := by
      rw [asBytes_append, asBytes_append, List.length_append, List.length_append] at h
      exact Nat.le_of_add_right_le h
    rw [List.foldl_cons, Crash.bufWriterWriteStr, if_pos hpiece]
    exact ih h

theorem written_eq {cap k : Nat} {items : List Item} (h : ∀ i ∈ items, i.Within k)
    (hascii : ∀ h ∈ items.map Item.hole, h.Ascii) (hk : 0 < k)
    (hroom : room k (items.map Item.hole) ≤ cap) :
    written cap items = print items ∧ (asBytes (print items)).length ≤ cap := by
  have hlen : (asBytes (print items)).length ≤ cap := by
    rw [length_asBytes fun c hc => val_le_of_mem_print (fun i hi => (h i hi).isBase) hascii hc]
    exact (length_print_le h hk).trans hroom
  exact ⟨foldl_bufWriterWriteStr (s := []) hlen, hlen⟩

theorem within_hex {w : Nat} (hw : w ≤ 20) (v : BitVec 64) : (hex w v).Within 20 :=
  ⟨by decide, by decide, hw, v.isLt.trans (by decide)⟩

namespace Irq

theorem within_headItems (f : ExceptionFrame) : ∀ i ∈ headItems f, i.Within 20 := by
  have hvector : (Item.number 10 0 f.vector.toNat).Within 20 :=
    ⟨by decide, by decide, by decide, f.vector.isLt.trans (by decide)⟩
  have hhex : ∀ w ≤ 20, ∀ v, (hex w v).Within 20 := fun _ hw v => within_hex hw v
  simp [headItems, Item.within_text, hvector, hhex]

theorem holes_headItems (f : ExceptionFrame) :
    (headItems f).map Item.hole = (headItems default).map Item.hole := rfl

theorem frameOf_headItems (f : ExceptionFrame) :
    frameOf ((headItems f).flatMap Item.numbers) = some f := by
  simp [headItems, Item.numbers, hex, frameOf]

theorem scan_headItems (f : ExceptionFrame) (rest : List Char) :
    scan ((headItems default).map Item.hole) (print (headItems f) ++ rest) =
      some ((headItems f).flatMap Item.numbers, rest) := by
  rw [← holes_headItems f]
  exact scan_print (fun i hi => (within_headItems f i hi).isBase)
    (by rw [holes_headItems]; decide +kernel) rest

theorem scan_cr2Items (cr2 : BitVec 64) (rest : List Char) :
    scan ((cr2Items 0).map Item.hole) (print (cr2Items cr2) ++ rest) =
      some ([cr2.toNat], rest) := by
  have hholes : (cr2Items cr2).map Item.hole = (cr2Items 0).map Item.hole := rfl
  rw [← hholes]
  exact scan_print (by simp [cr2Items, hex, Item.IsBase]) (by rw [hholes]; decide) rest

theorem readException_print (f : ExceptionFrame) (cr2 : BitVec 64) :
    readException (print (exceptionItems f cr2)) =
      some (f, if f.vector = 14 then some cr2 else none) := by
  rw [exceptionItems, List.append_assoc, print_append, readException, scan_headItems]
  simp only [Option.bind_eq_bind, Option.bind_some, frameOf_headItems]
  split
  · rw [print_append, scan_cr2Items]
    simp
  · rfl

theorem within_exceptionItems (f : ExceptionFrame) (cr2 : BitVec 64) :
    ∀ i ∈ exceptionItems f cr2, i.Within 20 := by
  have hcr2 : ∀ i ∈ cr2Items cr2, i.Within 20 := by
    simp [cr2Items, Item.within_text, within_hex]
  have hhalt : ∀ i ∈ haltItems, i.Within 20 := by simp [haltItems, Item.within_text]
  simp only [exceptionItems, List.forall_mem_append]
  refine ⟨⟨within_headItems f, ?_⟩, hhalt⟩
  split
  · exact hcr2
  · simp

theorem holes_exceptionItems (f : ExceptionFrame) (cr2 : BitVec 64) :
    (exceptionItems f cr2).map Item.hole = (headItems default ++
      (if f.vector = 14 then cr2Items 0 else []) ++ haltItems).map Item.hole := by
  simp only [exceptionItems, List.map_append, holes_headItems]
  split <;> rfl

theorem written_exceptionItems (f : ExceptionFrame) (cr2 : BitVec 64) :
    written 1024 (exceptionItems f cr2) = print (exceptionItems f cr2) ∧
      (asBytes (print (exceptionItems f cr2))).length ≤ 1024 := by
  refine written_eq (within_exceptionItems f cr2) ?_ (by decide) ?_
  · rw [holes_exceptionItems]
    split <;> decide +kernel
  · rw [holes_exceptionItems]
    split <;> decide +kernel

theorem formatException_exceptionPieces (f : ExceptionFrame) (cr2 : BitVec 64) :
    Crash.formatException .x86_64 (exceptionPieces f cr2) = written 1024 (exceptionItems f cr2) :=
  rfl

/-- No byte of a report is dropped, and what reaches the port tells the frame it is about. -/
theorem report_tells_frame (f : ExceptionFrame) (cr2 : BitVec 64) (rows : List (List Char))
    (k : Crash.Kernel) :
    ∃ k' text, Crash.dump .x86_64 k (.exception (exceptionPieces f cr2) rows) = .ok k' ∧
      k'.sent = k.sent ++ Crash.expandLfToCrlf text ++ rows.flatMap Crash.expandLfToCrlf ∧
      text = print (exceptionItems f cr2) ∧ (asBytes text).length ≤ 1024 ∧
      readException text = some (f, if f.vector = 14 then some cr2 else none) := by
  obtain ⟨hwritten, hlen⟩ := written_exceptionItems f cr2
  refine ⟨_, _, Crash.exceptionCommon_x86_64 _ _ k, ?_, rfl, hlen, readException_print f cr2⟩
  rw [Crash.sent_foldl_send, Crash.exceptionTexts, formatException_exceptionPieces, hwritten,
    List.flatMap_cons, List.append_assoc]

theorem within_stackItems (word : Nat → BitVec 64) (base : Nat) {offset : Nat}
    (h : offset < 2 ^ 64) : ∀ i ∈ stackItems word base offset, i.Within 16 := by
  have hoffset : (Item.number 16 5 offset).Within 16 := ⟨by decide, by decide, by decide, h⟩
  have hhex : ∀ v, (hex 16 v).Within 16 := fun v => ⟨by decide, by decide, by decide, v.isLt⟩
  simp [stackItems, Item.within_text, hoffset, hhex]

theorem holes_stackItems (word : Nat → BitVec 64) (base offset : Nat) :
    (stackItems word base offset).map Item.hole = (stackItems (fun _ => 0) 0 0).map Item.hole :=
  rfl

theorem written_stackItems (word : Nat → BitVec 64) (base : Nat) {offset : Nat}
    (h : offset < 2 ^ 64) :
    written 120 (stackItems word base offset) = print (stackItems word base offset) := by
  refine (written_eq (within_stackItems word base h) ?_ (by decide) ?_).1
  · rw [holes_stackItems]
    decide +kernel
  · rw [holes_stackItems]
    decide +kernel

theorem stackRows_eq (word : Nat → BitVec 64) {start n i : Nat} (hlow : ramLo ≤ start)
    (hi : start + i * 32 + 31 < 2 ^ 64) :
    stackRows word start n i = .ok ((List.range' i (min n ((ramHi - (start + i * 32)) / 32))).map
      fun j => (start + j * 32, print (stackItems word (start + j * 32) (j * 32)))) := by
  induction n generalizing i with
  | zero => simp [stackRows]
  | succ n ih =>
    have hbase : (start + i * 32) % 2 ^ 64 = start + i * 32 := Nat.mod_eq_of_lt (by omega)
    have hnot : ¬ start + i * 32 < ramLo := by omega
    simp only [stackRows]
    rw [umul_of_lt (by omega), ok_bind, hbase, if_neg hnot, uadd_of_lt hi, ok_bind]
    by_cases hin : ramHi ≤ start + i * 32 + 31
    · have hnone : (ramHi - (start + i * 32)) / 32 = 0 := Nat.div_eq_of_lt (by omega)
      rw [if_pos hin, hnone, Nat.min_zero]
      rfl
    · have hsome : (ramHi - (start + i * 32)) / 32 = (ramHi - (start + (i + 1) * 32)) / 32 + 1 := by
        omega
      have hnext : start + (i + 1) * 32 + 31 < 2 ^ 64 := by
        simp only [ramHi] at hin
        omega
      rw [if_neg hin, ih hnext, ok_bind, hsome, Nat.succ_min_succ, List.range'_succ, List.map_cons,
        written_stackItems word _ (by omega)]
      rfl

theorem shownRows_within {start nWords i : Nat} (hi : i < shownRows start nWords) :
    ramLo ≤ start + i * 32 ∧ start + i * 32 + 32 ≤ ramHi := by
  rw [shownRows] at hi
  split at hi <;> omega

/-- The check of the window may run over the end of the address space, on the first row only. -/
theorem dumpStack_eq (word : Nat → BitVec 64) {start : Nat} (nWords : Nat)
    (hstart : start < 2 ^ 64) : dumpStack word start nWords =
      if 4 ≤ nWords ∧ 2 ^ 64 ≤ start + 31 then .error .overflow
      else .ok ((List.range (shownRows start nWords)).map fun i =>
        (start + i * 32, print (stackItems word (start + i * 32) (i * 32)))) := by
  rcases Nat.lt_or_ge nWords 4 with hfew | hrows
  · have hnone : nWords / 4 = 0 := Nat.div_eq_of_lt hfew
    have hshown : shownRows start nWords = 0 := by simp [shownRows, hnone]
    rw [if_neg (by omega), hshown, dumpStack, hnone]
    rfl
  · obtain ⟨n, hn⟩ : ∃ n, nWords / 4 = n + 1 := ⟨nWords / 4 - 1, by omega⟩
    have hbase : (start + 0 * 32) % 2 ^ 64 = start := Nat.mod_eq_of_lt hstart
    rcases Nat.lt_or_ge start ramLo with hlow | hlow
    · have hshown : shownRows start nWords = 0 := if_pos hlow
      have hfits : ¬ (4 ≤ nWords ∧ 2 ^ 64 ≤ start + 31) := by
        simp only [ramLo] at hlow
        omega
      rw [if_neg hfits, hshown, dumpStack, hn]
      simp only [stackRows]
      rw [umul_of_lt (by omega), ok_bind, hbase, if_pos hlow]
      rfl
    · have hshown : shownRows start nWords = min (nWords / 4) ((ramHi - start) / 32) :=
        if_neg (by omega)
      rcases Nat.lt_or_ge (start + 31) (2 ^ 64) with hfits | hwrap
      · have hrows := stackRows_eq word (n := nWords / 4) (i := 0) hlow (by omega)
        rw [if_neg (by omega), dumpStack, hrows, hshown, List.range_eq_range']
        simp
      · have hnot : ¬ start < ramLo := by omega
        have hover : ¬ start + 31 < 2 ^ 64 := by omega
        have hstop : uadd 64 start 31 = .error .overflow := if_neg hover
        rw [if_pos ⟨hrows, hwrap⟩, dumpStack, hn]
        simp only [stackRows]
        rw [umul_of_lt (by omega), ok_bind, hbase, if_neg hnot, hstop]
        rfl

theorem readRow_print (word : Nat → BitVec 64) (base offset : Nat) :
    readRow (print (stackItems word base offset)) = some [offset, (word base).toNat,
      (word (base + 8)).toNat, (word (base + 16)).toNat, (word (base + 24)).toNat] := by
  have hbase : ∀ i ∈ stackItems word base offset, i.IsBase := by
    simp [stackItems, hex, Item.IsBase]
  have hscan := scan_print hbase (by rw [holes_stackItems]; decide +kernel) []
  rw [List.append_nil, holes_stackItems] at hscan
  rw [readRow, hscan]
  rfl

theorem written_rspItems {oldRsp : Nat} (h : oldRsp < 2 ^ 64) :
    written 64 (rspItems oldRsp) = print (rspItems oldRsp) := by
  have hnumber : (Item.number 16 16 oldRsp).Within 16 := ⟨by decide, by decide, by decide, h⟩
  have hholes : (rspItems oldRsp).map Item.hole = (rspItems 0).map Item.hole := rfl
  refine (written_eq (k := 16) (by simp [rspItems, Item.within_text, hnumber]) ?_ (by decide) ?_).1
  · rw [hholes]
    decide +kernel
  · rw [hholes]
    decide +kernel

/-- Below the report stand the whole rows of the stack that lie in the window, and no word outside
it is read; each row tells its words. A frame at the very end of the address space stops the dump:
the check of the window runs over. -/
theorem stack_rows_tell_words (word : Nat → BitVec 64) (frame : Nat) :
    (exceptionRows word frame =
      if 2 ^ 64 ≤ frame + 127 then .error .overflow
      else .ok (print (rspItems (frame + 112)) :: (List.range (shownRows (frame + 96) 144)).map
        fun i => print (stackItems word (frame + 96 + i * 32) (i * 32)))) ∧
      ∀ i < shownRows (frame + 96) 144,
        ramLo ≤ frame + 96 + i * 32 ∧ frame + 96 + i * 32 + 32 ≤ ramHi ∧
        readRow (print (stackItems word (frame + 96 + i * 32) (i * 32))) =
          some [i * 32, (word (frame + 96 + i * 32)).toNat, (word (frame + 96 + i * 32 + 8)).toNat,
            (word (frame + 96 + i * 32 + 16)).toNat, (word (frame + 96 + i * 32 + 24)).toNat] := by
  refine ⟨?_, fun i hi => ?_⟩
  · by_cases hend : frame + 112 < 2 ^ 64
    · have hsub : frame + 112 - 16 = frame + 96 := rfl
      rw [exceptionRows, uadd_of_lt hend, ok_bind, hsub, dumpStack_eq word 144 (by omega)]
      by_cases hwrap : 2 ^ 64 ≤ frame + 127
      · rw [if_pos ⟨by decide, hwrap⟩, if_pos hwrap]
        rfl
      · rw [if_neg (by omega), if_neg hwrap, ok_bind, written_rspItems hend, List.map_map]
        rfl
    · have hstop : uadd 64 frame 112 = .error .overflow := if_neg hend
      rw [exceptionRows, hstop, if_pos (by omega)]
      rfl
  · obtain ⟨hlow, hhigh⟩ := shownRows_within hi
    exact ⟨hlow, hhigh, readRow_print word _ _⟩

end Irq

end FerricK
