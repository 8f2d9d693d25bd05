import FerricK.Font.Defs
import FerricK.Lib.Body
import FerricK.Lib.Bytes
import Mathlib.Data.Nat.Count

namespace FerricK.Elf

open Rust

def higherHalfBase : Nat := 0xFFFF_FFFF_8000_0000
def entryCeiling : Nat := 0xFFFF_FFFF_C000_0000
def pageSize : Nat := 0x1000

def bytesAt (b : List UInt8) (off : Nat) : Nat → Rust (List UInt8)
  | 0 => .ok []
  | n + 1 => do
    let front ← bytesAt b off n
    return front ++ [← index b (← uadd 64 off n)]

def r16 (b : List UInt8) (off : Nat) : Rust Nat := Bytes.ofLE <$> bytesAt b off 2
def r32 (b : List UInt8) (off : Nat) : Rust Nat := Bytes.ofLE <$> bytesAt b off 4
def r64 (b : List UInt8) (off : Nat) : Rust Nat := Bytes.ofLE <$> bytesAt b off 8

def windows (n : Nat) (l : List UInt8) : List (List UInt8) :=
  (List.range (l.length + 1 - n)).map fun i => (l.drop i).take n

def findBytes (haystack needle : List UInt8) : Option Nat :=
  (windows needle.length haystack).findIdx? (· == needle)

def hex (n : Nat) : String := .ofList ((Nat.toDigits 16 n).map Char.toUpper)

def toDigit (c : Char) : Option Nat :=
  if '0' ≤ c ∧ c ≤ '9' then some (c.toNat - '0'.toNat)
  else if 'A' ≤ c ∧ c ≤ 'F' then some (c.toNat - 'A'.toNat + 10)
  else if 'a' ≤ c ∧ c ≤ 'f' then some (c.toNat - 'a'.toNat + 10)
  else none

def fromStrRadix (text : List Char) : Option UInt8 :=
  let digits := if text.head? = some '+' ∧ 1 < text.length then text.tail else text
  if digits = [] then none
  else UInt8.ofNat <$> digits.foldlM
    (fun n c => ((toDigit c).map (n * 16 + ·)).filter (· < 2 ^ 8)) 0

abbrev Gate := Body (Except String Unit)

def fail (text : String) : Gate α := Body.ret (.error text)

def programHeader (p : String) (elf : List UInt8) (phoff phentsize seenLoad i : Nat) :
    Gate Nat := do
  let base ← uadd 64 phoff (← umul 64 i phentsize)
  let ty ← r32 elf base
  if ty ≠ 1 then return seenLoad
  else do
    let seenLoad ← uadd 64 seenLoad 1
    let vaddr ← r64 elf (← uadd 64 base 0x10)
    let align ← r64 elf (← uadd 64 base 0x30)
    if align ≠ pageSize then
      fail (s!"{p}: PT_LOAD #{i} p_align 0x{hex align}, expected 0x{hex pageSize}" ++
        " (loader requires <=4 KiB pages)")
    else if seenLoad = 1 ∧ vaddr ≠ higherHalfBase then
      fail (s!"{p}: first PT_LOAD vaddr 0x{hex vaddr}, expected 0x{hex higherHalfBase}" ++
        " (higher-half base)")
    else return seenLoad

def cstr (strtab : List UInt8) (off : Nat) : Rust (List UInt8) := do
  let rest ← slice strtab off strtab.length
  let stop := (rest.findIdx? (· == 0)).getD (← usub strtab.length off)
  slice strtab off (← uadd 64 off stop)

def startMarker : List Nat :=
  [0xF6B8F4B39DE7D1AE, 0xFAB91A6940FCB9CF, 0x785C6ED015D3E316, 0x181E920A7852B9D9]

def endMarker : List Nat := [0xADC0E0531BB10D03, 0x9572709F31764C62]

def marker (p which : String) (content : List UInt8) (off : Nat) (words : List Nat) : Gate Unit :=
  forM words.zipIdx fun (want, w) => do
    let got ← r64 content (← uadd 64 off (← umul 64 8 w))
    if got ≠ want then
      fail s!"{p}: {which} marker word {w}: found 0x{hex got}, expected 0x{hex want}"
    else return

def words : List (String × List Char) :=
  [("base-revision-magic", "F9562B2D5C95A6C8".toList),
    ("hhdm-request-id", "48DCF1CB8AD2B852".toList),
    ("framebuffer-id", "9D5827DCD881DD75".toList),
    ("memmap-request-id", "67CF3D9D378A806F".toList)]

/-- Pairs of digits are walked from the back. -/
def needle (digits : List Char) : Rust (List UInt8) :=
  (List.range 8).mapM fun k => do
    let pair ← slice digits (← usub 14 (← umul 64 k 2)) (← usub 16 (← umul 64 k 2))
    expect "called `Result::unwrap()` on an `Err` value" (fromStrRadix pair)

def checkRequests (p : String) (content : List UInt8) (len : Nat) : Gate Unit := do
  marker p "start" content 0 startMarker
  marker p "end" content (← usub len 16) endMarker
  forM words fun (label, digits) => do
    if findBytes content (← needle digits) = none then
      fail s!"{p}: .limine_requests missing {label} (0x{String.ofList digits})"
    else return
  Body.ret (.ok ())

def limineRequests : List UInt8 := ".limine_requests".toUTF8.toList

def sectionHeader (p : String) (elf strtab : List UInt8) (shoff shentsize i : Nat) :
    Gate Unit := do
  let hdr ← uadd 64 shoff (← umul 64 i shentsize)
  if (← cstr strtab (← r32 elf hdr)) ≠ limineRequests then return
  else do
    let addr ← r64 elf (← uadd 64 hdr 0x10)
    let off ← r64 elf (← uadd 64 hdr 0x18)
    let len ← r64 elf (← uadd 64 hdr 0x20)
    if addr % 8 ≠ 0 then
      fail s!"{p}: .limine_requests vaddr 0x{hex addr} not 8-byte aligned"
    else if len < 216 then
      fail s!"{p}: .limine_requests size {len} < 216 (markers + base rev + 3 requests)"
    else if (← uadd 64 off len) > elf.length then
      fail s!"{p}: .limine_requests section out of bounds"
    else checkRequests p (← slice elf off (← uadd 64 off len)) len

def sectionHeaders (p : String) (elf : List UInt8) : Gate (Except String Unit) := do
  let shoff ← r64 elf 0x28
  let shentsize ← r16 elf 0x3A
  let shnum ← r16 elf 0x3C
  let shstrndx ← r16 elf 0x3E
  if shnum = 0 ∨ shstrndx = 0 then
    fail s!"{p}: stripped section headers cannot prove Limine requests"
  else do
    let strtabHdr ← uadd 64 shoff (← umul 64 shstrndx shentsize)
    let strtabOff ← r64 elf (← uadd 64 strtabHdr 0x18)
    let strtabLen ← r64 elf (← uadd 64 strtabHdr 0x20)
    if (← uadd 64 strtabOff strtabLen) > elf.length then
      fail s!"{p}: section header string table out of bounds"
    else do
      let strtab ← slice elf strtabOff (← uadd 64 strtabOff strtabLen)
      (List.range shnum).foldlM (fun _ => sectionHeader p elf strtab shoff shentsize) ()
      return .error s!"{p}: .limine_requests section not found"

def limineElfGate (p : String) (elf : Slice) : Rust (Except String Unit) :=
  let elf := elf.bytes
  Body.call do
    if elf.length < 64 then fail s!"{p} is not an ELF file"
    else if (← slice elf 0 4) ≠ [0x7F, 0x45, 0x4C, 0x46] then fail s!"{p} is not an ELF file"
    else do
      let entry ← r64 elf 0x18
      if ¬ (higherHalfBase ≤ entry ∧ entry < entryCeiling) then
        fail (s!"{p}: e_entry 0x{hex entry} outside higher-half range" ++
          s!" [0x{hex higherHalfBase}, 0x{hex entryCeiling})")
      else do
        let phoff ← r64 elf 0x20
        let phentsize ← r16 elf 0x36
        let phnum ← r16 elf 0x38
        if phnum = 0 then fail s!"{p}: no program headers"
        else do
          let seenLoad ← (List.range phnum).foldlM (programHeader p elf phoff phentsize) 0
          if seenLoad = 0 then fail s!"{p}: no PT_LOAD segments"
          else sectionHeaders p elf

def wordAt (n : Nat) (elf : List UInt8) (off : Nat) : Nat := Bytes.ofLE ((elf.drop off).take n)

variable {elf content : List UInt8} {p : String} {n off i : Nat}

theorem bytesAt_eq (hlen : elf.length < 2 ^ 63) (h : off + n ≤ elf.length) :
    bytesAt elf off n = .ok ((elf.drop off).take n) := by
  induction n with
  | zero => rfl
  | succ n ih =>
    have hindex : index elf (off + n) = .ok elf[off + n] := index_of_lt (by omega)
    have hget : (elf.drop off)[n]? = some elf[off + n] := by
      rw [List.getElem?_drop, List.getElem?_eq_getElem]
    rw [bytesAt, ih (by omega), ok_bind, uadd_of_lt (by omega), ok_bind, hindex,
      List.take_add_one, hget]
    rfl

theorem le_of_bytesAt {v : List UInt8} (h : bytesAt elf off (n + 1) = .ok v) :
    off + (n + 1) ≤ elf.length := by
  obtain ⟨front, -, hlast⟩ := bind_eq_ok.mp h
  obtain ⟨at', hat, hbyte⟩ := bind_eq_ok.mp hlast
  obtain ⟨b, hb, -⟩ := bind_eq_ok.mp hbyte
  obtain ⟨-, rfl⟩ := uadd_eq_ok.mp hat
  obtain ⟨hlt, -⟩ := List.getElem?_eq_some_iff.mp (index_eq_ok.mp hb)
  omega

theorem exists_bytesAt (hlen : elf.length < 2 ^ 63) (n : Nat) {Q : Nat → Prop} :
    (∃ v, Bytes.ofLE <$> bytesAt elf off (n + 1) = .ok v ∧ Q v) ↔
      off + (n + 1) ≤ elf.length ∧ Q (wordAt (n + 1) elf off) := by
  by_cases h : off + (n + 1) ≤ elf.length
  · have hword : Bytes.ofLE <$> bytesAt elf off (n + 1) = .ok (wordAt (n + 1) elf off) := by
      rw [bytesAt_eq hlen h]
      rfl
    simp [hword, h]
  · simp only [h, false_and, iff_false]
    rintro ⟨v, hv, -⟩
    cases hbytes : bytesAt elf off (n + 1) with
    | error e => rw [hbytes] at hv; cases hv
    | ok bs => exact h (le_of_bytesAt hbytes)

theorem exists_r16 (hlen : elf.length < 2 ^ 63) {Q : Nat → Prop} :
    (∃ v, r16 elf off = .ok v ∧ Q v) ↔ off + 2 ≤ elf.length ∧ Q (wordAt 2 elf off) :=
  exists_bytesAt hlen 1

theorem exists_r32 (hlen : elf.length < 2 ^ 63) {Q : Nat → Prop} :
    (∃ v, r32 elf off = .ok v ∧ Q v) ↔ off + 4 ≤ elf.length ∧ Q (wordAt 4 elf off) :=
  exists_bytesAt hlen 3

theorem exists_r64 (hlen : elf.length < 2 ^ 63) {Q : Nat → Prop} :
    (∃ v, r64 elf off = .ok v ∧ Q v) ↔ off + 8 ≤ elf.length ∧ Q (wordAt 8 elf off) :=
  exists_bytesAt hlen 7

theorem exists_cstr {strtab : List UInt8} (hlen : strtab.length < 2 ^ 63) {Q : List UInt8 → Prop} :
    (∃ v, cstr strtab off = .ok v ∧ Q v) ↔
      off ≤ strtab.length ∧ Q ((strtab.drop off).takeWhile (· != 0)) := by
  by_cases h : off ≤ strtab.length
  · have hrest : (strtab.drop off).take (strtab.length - off) = strtab.drop off :=
      List.take_of_length_le (by rw [List.length_drop])
    have hname : (strtab.drop off).take ((strtab.drop off).findIdx (· == 0)) =
        (strtab.drop off).takeWhile (· != 0) := by
      simp only [List.takeWhile_eq_take_findIdx_not, bne, Bool.not_not]
    have hfind : ((strtab.drop off).findIdx? (· == 0)).getD (strtab.length - off) =
        (strtab.drop off).findIdx (· == 0) := by
      rw [List.findIdx_eq_getD_findIdx?, List.length_drop]
    have hstop : (strtab.drop off).findIdx (· == 0) ≤ strtab.length - off := by
      rw [← List.length_drop]
      exact List.findIdx_le_length
    have hcstr : cstr strtab off = .ok ((strtab.drop off).takeWhile (· != 0)) := by
      rw [cstr, slice_of_le ⟨h, le_rfl⟩, ok_bind, usub_of_le h, ok_bind, hrest, hfind]
      dsimp only
      rw [uadd_of_lt (by omega), ok_bind, slice_of_le (by omega), Nat.add_sub_cancel_left, hname]
    simp [hcstr, h]
  · have hcstr : cstr strtab off = .error .bounds := by
      rw [cstr, slice, if_neg (by omega), error_bind]
    simp [hcstr, h]

def phdr (elf : List UInt8) (i : Nat) : Nat := wordAt 8 elf 0x20 + i * wordAt 2 elf 0x36

def Load (elf : List UInt8) (i : Nat) : Prop := wordAt 4 elf (phdr elf i) = 1

instance (elf : List UInt8) : DecidablePred (Load elf) :=
  fun _ => inferInstanceAs (Decidable (_ = _))

def Rejected (elf : List UInt8) (i : Nat) : Prop :=
  Load elf i ∧ (wordAt 8 elf (phdr elf i + 0x30) ≠ pageSize ∨
    (∀ j < i, ¬ Load elf j) ∧ wordAt 8 elf (phdr elf i + 0x10) ≠ higherHalfBase)

structure ProgramInside (elf : List UInt8) (i : Nat) : Prop where
  type : phdr elf i + 4 ≤ elf.length
  fields : Load elf i → phdr elf i + 0x38 ≤ elf.length

theorem runs_programHeader (hlen : elf.length < 2 ^ 63) (hi : i < 2 ^ 16) (Q : Nat → Prop) :
    (programHeader p elf (wordAt 8 elf 0x20) (wordAt 2 elf 0x36) (Nat.count (Load elf) i) i).Runs
        Q ↔
      ProgramInside elf i ∧ (¬ Rejected elf i → Q (Nat.count (Load elf) (i + 1))) := by
  have hphdr : wordAt 8 elf 0x20 + i * wordAt 2 elf 0x36 = phdr elf i := rfl
  have hcount : Nat.count (Load elf) i ≤ i := Nat.count_le _
  have hfirst : Nat.count (Load elf) i + 1 = 1 ↔ ∀ j < i, ¬ Load elf j := by
    rw [Nat.add_eq_right, Nat.count_iff_forall_not]
  have hsucc := Nat.count_succ (Load elf) i
  simp only [programHeader, fail, Body.runs_bind, Body.runs_lift, Body.runs_ite, Body.runs_pure,
    Body.runs_ret, Body.exists_umul, Body.exists_uadd, exists_r32 hlen, exists_r64 hlen,
    implies_true, true_and, hphdr, hfirst]
  by_cases hload : Load elf i
  · rw [if_pos hload] at hsucc
    have htype : wordAt 4 elf (phdr elf i) = 1 := hload
    simp only [htype, hsucc, ne_eq, not_true_eq_false, not_false_eq_true, false_implies,
      true_implies, true_and]
    constructor
    · rintro ⟨-, -, hhead, -, -, -, -, htail, hgo⟩
      refine ⟨⟨hhead, fun _ => by omega⟩, fun hpass => hgo ?_ ?_⟩
      · exact fun halign => hpass ⟨hload, .inl halign⟩
      · exact fun hvaddr => hpass ⟨hload, .inr hvaddr⟩
    · rintro ⟨hinside, hgo⟩
      have htail := hinside.fields hload
      refine ⟨by omega, by omega, by omega, by omega, by omega, by omega, by omega, by omega, ?_⟩
      intro halign hvaddr
      refine hgo ?_
      rintro ⟨-, hbad | hbad⟩
      · exact halign hbad
      · exact hvaddr hbad
  · rw [if_neg hload] at hsucc
    have htype : ¬ wordAt 4 elf (phdr elf i) = 1 := hload
    simp only [htype, hsucc, ne_eq, not_true_eq_false, not_false_eq_true, false_implies,
      true_implies, and_true, Nat.add_zero]
    constructor
    · rintro ⟨-, -, hhead, hgo⟩
      exact ⟨⟨hhead, fun h => absurd h hload⟩, fun _ => hgo⟩
    · rintro ⟨hinside, hgo⟩
      have hhead := hinside.type
      exact ⟨by omega, by omega, hhead, hgo fun h => hload h.1⟩

theorem runs_marker {which : String} {words : List Nat} (hlen : content.length < 2 ^ 63)
    (h : off + 8 * words.length ≤ content.length) :
    (marker p which content off words).Runs fun _ => True := by
  refine Body.runs_forM (fun (want, w) hw => ?_) trivial
  have hlt : w < words.length := by
    simpa using List.snd_lt_of_mem_zipIdx hw
  simp only [fail, Body.runs_bind, Body.runs_lift, Body.runs_ite, Body.runs_pure, Body.runs_ret,
    Body.exists_umul, Body.exists_uadd, exists_r64 hlen, implies_true]
  exact ⟨by omega, by omega, by omega, trivial, trivial⟩

theorem needle_words : ∀ w ∈ words, (needle w.2).toBool = true := by
  decide

theorem runs_checkRequests {len : Nat} (hcontent : content.length = len) (hlen : len < 2 ^ 63)
    (h : 216 ≤ len) (Q : Unit → Prop) : (checkRequests p content len).Runs Q := by
  subst hcontent
  have hstart : 0 + 8 * startMarker.length ≤ content.length := by
    simp only [startMarker, List.length_cons, List.length_nil]
    omega
  have hend : content.length - 16 + 8 * endMarker.length ≤ content.length := by
    simp only [endMarker, List.length_cons, List.length_nil]
    omega
  simp only [checkRequests, Body.runs_bind, Body.runs_lift, Body.exists_usub, Body.runs_ret]
  refine (runs_marker hlen hstart).mono fun _ _ => ⟨by omega, ?_⟩
  refine (runs_marker hlen hend).mono fun _ _ => Body.runs_forM (fun w hw => ?_) trivial
  have hneedle := needle_words w hw
  simp only [fail, Body.runs_bind, Body.runs_lift, Body.runs_ite, Body.runs_pure, Body.runs_ret,
    implies_true]
  cases hbytes : needle w.2 with
  | error e => rw [hbytes] at hneedle; cases hneedle
  | ok bs => exact ⟨bs, rfl, trivial, trivial⟩

def shdr (elf : List UInt8) (i : Nat) : Nat := wordAt 8 elf 0x28 + i * wordAt 2 elf 0x3A

def strtabOff (elf : List UInt8) : Nat := wordAt 8 elf (shdr elf (wordAt 2 elf 0x3E) + 0x18)
def strtabLen (elf : List UInt8) : Nat := wordAt 8 elf (shdr elf (wordAt 2 elf 0x3E) + 0x20)

def strtab (elf : List UInt8) : List UInt8 := (elf.drop (strtabOff elf)).take (strtabLen elf)

def Requests (elf : List UInt8) (i : Nat) : Prop :=
  ((strtab elf).drop (wordAt 4 elf (shdr elf i))).takeWhile (· != 0) = limineRequests

/-- What is read of header `i` and of its name lies in the file, and what it says of its section
does not overflow where it comes to that. -/
structure SectionInside (elf : List UInt8) (i : Nat) : Prop where
  name : shdr elf i + 4 ≤ elf.length
  text : wordAt 4 elf (shdr elf i) ≤ strtabLen elf
  fields : Requests elf i → shdr elf i + 0x28 ≤ elf.length
  content : Requests elf i → wordAt 8 elf (shdr elf i + 0x10) % 8 = 0 →
    216 ≤ wordAt 8 elf (shdr elf i + 0x20) →
    wordAt 8 elf (shdr elf i + 0x18) + wordAt 8 elf (shdr elf i + 0x20) < 2 ^ 64

theorem runs_sectionHeader (hlen : elf.length < 2 ^ 63)
    (hstrtab : strtabOff elf + strtabLen elf ≤ elf.length) (Q : Unit → Prop) :
    (sectionHeader p elf (strtab elf) (wordAt 8 elf 0x28) (wordAt 2 elf 0x3A) i).Runs Q ↔
      SectionInside elf i ∧ (¬ Requests elf i → Q ()) := by
  have hshdr : wordAt 8 elf 0x28 + i * wordAt 2 elf 0x3A = shdr elf i := rfl
  have hlength : (strtab elf).length = strtabLen elf := by
    rw [strtab, List.length_take, List.length_drop]
    omega
  simp only [sectionHeader, fail, Body.runs_bind, Body.runs_lift, Body.runs_ite, Body.runs_pure,
    Body.runs_ret, Body.exists_umul, Body.exists_uadd, exists_r32 hlen, exists_r64 hlen,
    exists_cstr (hlength.trans_lt (show strtabLen elf < 2 ^ 63 by omega)), Body.exists_slice,
    implies_true, true_and, hshdr, hlength]
  by_cases hrequests : Requests elf i
  · have hname := hrequests
    unfold Requests at hname
    simp only [hname, hrequests, ne_eq, not_true_eq_false, not_false_eq_true, false_implies,
      true_implies, true_and, and_true]
    constructor
    · rintro ⟨-, -, hhead, htext, -, -, -, -, -, hfields, hcontent⟩
      refine ⟨hhead, htext, fun _ => by omega, fun _ haddr hsize => ?_⟩
      exact (hcontent (not_not.mpr haddr) (by omega)).1
    · intro hinside
      have hfields := hinside.fields hrequests
      refine ⟨by omega, by omega, hinside.name, hinside.text, by omega, by omega, by omega,
        by omega, by omega, by omega, fun haddr hsize => ?_⟩
      have hadd := hinside.content hrequests (not_not.mp haddr) (by omega)
      refine ⟨hadd, fun hfits => ⟨hadd, by omega, ?_⟩⟩
      refine runs_checkRequests ?_ (by omega) (by omega) Q
      rw [List.length_take, List.length_drop]
      omega
  · have hname := hrequests
    unfold Requests at hname
    simp only [hname, hrequests, ne_eq, not_true_eq_false, not_false_eq_true, false_implies,
      true_implies, and_true]
    constructor
    · rintro ⟨-, -, hhead, htext, hgo⟩
      exact ⟨⟨hhead, htext, fun h => absurd h hrequests, fun h => absurd h hrequests⟩, hgo⟩
    · rintro ⟨hinside, hgo⟩
      have hhead := hinside.name
      exact ⟨by omega, by omega, hhead, hinside.text, hgo⟩

/-- An ELF file by its magic number, with an entry point the gate takes. -/
def Recognised (elf : List UInt8) : Prop :=
  64 ≤ elf.length ∧ elf.take 4 = [0x7F, 0x45, 0x4C, 0x46] ∧
    higherHalfBase ≤ wordAt 8 elf 0x18 ∧ wordAt 8 elf 0x18 < entryCeiling

def ProgramsInside (elf : List UInt8) : Prop :=
  ∀ i < wordAt 2 elf 0x38, (∀ j < i, ¬ Rejected elf j) → ProgramInside elf i

def Loadable (elf : List UInt8) : Prop :=
  (∀ i < wordAt 2 elf 0x38, ¬ Rejected elf i) ∧ ∃ i < wordAt 2 elf 0x38, Load elf i

structure SectionsInside (elf : List UInt8) : Prop where
  header : shdr elf (wordAt 2 elf 0x3E) + 0x28 ≤ elf.length
  strtab : strtabOff elf + strtabLen elf < 2 ^ 64
  sections : strtabOff elf + strtabLen elf ≤ elf.length →
    ∀ i < wordAt 2 elf 0x3C, (∀ j < i, ¬ Requests elf j) → SectionInside elf i

structure Contained (elf : List UInt8) : Prop where
  programs : ProgramsInside elf
  sections : Loadable elf → wordAt 2 elf 0x3C ≠ 0 → wordAt 2 elf 0x3E ≠ 0 → SectionsInside elf

theorem wordAt_lt (elf : List UInt8) (off : Nat) : wordAt 2 elf off < 2 ^ 16 := by
  have hlt := Bytes.ofLE_lt ((elf.drop off).take 2)
  have hpow : 256 ^ ((elf.drop off).take 2).length ≤ 256 ^ 2 :=
    Nat.pow_le_pow_right (by omega) (List.length_take_le _ _)
  exact hlt.trans_le hpow

theorem runs_programHeaders (hlen : elf.length < 2 ^ 63) (Q : Nat → Prop) :
    ((List.range (wordAt 2 elf 0x38)).foldlM
        (programHeader p elf (wordAt 8 elf 0x20) (wordAt 2 elf 0x36)) 0 : Gate Nat).Runs Q ↔
      ProgramsInside elf ∧ ((∀ i < wordAt 2 elf 0x38, ¬ Rejected elf i) →
        Q (Nat.count (Load elf) (wordAt 2 elf 0x38))) := by
  have hloop := Body.runs_foldlM_range (Nat.count (Load elf)) (wordAt 2 elf 0x38) (fun i hi =>
    runs_programHeader (p := p) hlen (hi.trans (wordAt_lt elf 0x38))) Q
  rwa [Nat.count_zero] at hloop

theorem runs_sectionHeaders (hlen : elf.length < 2 ^ 63) (h64 : 64 ≤ elf.length)
    (Q : Except String Unit → Prop) (hQ : ∀ r, Q r) :
    (sectionHeaders p elf).Runs Q ↔
      (wordAt 2 elf 0x3C ≠ 0 → wordAt 2 elf 0x3E ≠ 0 → SectionsInside elf) := by
  have hshdr : wordAt 8 elf 0x28 + wordAt 2 elf 0x3E * wordAt 2 elf 0x3A =
    shdr elf (wordAt 2 elf 0x3E) := rfl
  have hoff : wordAt 8 elf (shdr elf (wordAt 2 elf 0x3E) + 0x18) = strtabOff elf := rfl
  have hlength : wordAt 8 elf (shdr elf (wordAt 2 elf 0x3E) + 0x20) = strtabLen elf := rfl
  have hstrtab : (elf.drop (strtabOff elf)).take (strtabLen elf) = strtab elf := rfl
  simp only [sectionHeaders, fail, Body.runs_bind, Body.runs_lift, Body.runs_ite, Body.runs_pure,
    Body.runs_ret, Body.exists_umul, Body.exists_uadd, exists_r16 hlen, exists_r64 hlen,
    Body.exists_slice, implies_true, true_and, hshdr, hoff, hlength, hstrtab, hQ,
    Nat.add_sub_cancel_left]
  have hloop : ∀ hfits : strtabOff elf + strtabLen elf ≤ elf.length,
      ((List.range (wordAt 2 elf 0x3C)).foldlM (fun _ => sectionHeader p elf (strtab elf)
        (wordAt 8 elf 0x28) (wordAt 2 elf 0x3A)) () : Gate Unit).Runs (fun _ => True) ↔
      ∀ i < wordAt 2 elf 0x3C, (∀ j < i, ¬ Requests elf j) → SectionInside elf i := by
    intro hfits
    rw [Body.runs_foldlM_range (fun _ => ()) _ fun i _ => runs_sectionHeader hlen hfits]
    exact and_iff_left fun _ => trivial
  constructor
  · rintro ⟨-, -, -, -, hrest⟩ hshnum hshstrndx
    obtain ⟨-, -, -, -, -, hheader, hadd, hloops⟩ := hrest (by omega)
    refine ⟨hheader, hadd, fun hfits => ?_⟩
    exact (hloop hfits).mp (hloops (by omega)).2.2
  · intro hinside
    refine ⟨by omega, by omega, by omega, by omega, fun hnot => ?_⟩
    have hsections := hinside (by omega) (by omega)
    have hheader := hsections.header
    have hadd := hsections.strtab
    refine ⟨by omega, by omega, by omega, by omega, by omega, by omega, hadd, fun hfits => ?_⟩
    exact ⟨hadd, by omega, (hloop (by omega)).mpr (hsections.sections (by omega))⟩

/-- The gate answers, with `Ok` or with `Err`, just where all that it comes to lies in the
file. -/
theorem limineElfGate_returns_iff (p : String) (elf : Slice) :
    (∃ r, limineElfGate p elf = .ok r) ↔ (Recognised elf.bytes → Contained elf.bytes) := by
  obtain ⟨elf, hlen⟩ := elf
  have hcount : Nat.count (Load elf) (wordAt 2 elf 0x38) ≠ 0 ↔
      ∃ i < wordAt 2 elf 0x38, Load elf i := Nat.count_ne_iff_exists
  rw [limineElfGate, Body.call_returns_iff]
  simp only [fail, Body.runs_bind, Body.runs_lift, Body.runs_ite, Body.runs_ret, exists_r16 hlen,
    exists_r64 hlen, Body.exists_slice, runs_programHeaders hlen, implies_true, true_and]
  by_cases h64 : 64 ≤ elf.length
  · simp only [runs_sectionHeaders hlen h64 (fun _ => True) fun _ => trivial]
    constructor
    · rintro h ⟨-, hmagic, hentry⟩
      obtain ⟨-, hmagic'⟩ := h (by omega)
      obtain ⟨-, hentry'⟩ := hmagic' (not_not.mpr hmagic)
      obtain ⟨-, -, -, hheaders⟩ := hentry' (not_not.mpr hentry)
      by_cases hphnum : wordAt 2 elf 0x38 = 0
      · refine ⟨fun i hi => by omega, ?_⟩
        rintro ⟨-, i, hi, -⟩
        omega
      · obtain ⟨hprograms, hsections⟩ := hheaders hphnum
        exact ⟨hprograms, fun hloadable => hsections hloadable.1 (hcount.mpr hloadable.2)⟩
    · intro h _
      refine ⟨by omega, fun hmagic => ⟨by omega, fun hentry =>
        ⟨by omega, by omega, by omega, fun _ => ?_⟩⟩⟩
      have hinside := h ⟨h64, not_not.mp hmagic, not_not.mp hentry⟩
      exact ⟨hinside.programs, fun hpass hseen => hinside.sections ⟨hpass, hcount.mp hseen⟩⟩
  · exact iff_of_true (fun h => absurd (Nat.not_lt.mp h) h64) fun h => absurd h.1 h64

def truncated : Slice where
  bytes := [0x7F, 0x45, 0x4C, 0x46] ++ List.replicate 20 0 ++ Bytes.toLE 8 higherHalfBase ++
    Bytes.toLE 8 64 ++ List.replicate 14 0 ++ Bytes.toLE 2 56 ++ Bytes.toLE 2 1 ++
    List.replicate 6 0
  length_lt := by decide

theorem limineElfGate_stops : limineElfGate "kernel.elf" truncated = .error .bounds := by
  decide

end FerricK.Elf
