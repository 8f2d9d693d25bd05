import FerricK.Lib.Numerals

namespace Template

/-- A fixed text, or the number `n` in base `b`, in capitals, padded with zeros to `w` digits. -/
inductive Item
  | text (s : String)
  | number (b w n : Nat)

inductive Hole
  | text (s : String)
  | number (b : Nat)
  deriving DecidableEq

def upper (b n : Nat) : List Char := (Nat.toDigits b n).map Char.toUpper

namespace Item

/-- What goes to the writer: the zeros one by one, and then the digits. -/
def pieces : Item → List (List Char)
  | .text s => [s.toList]
  | .number b w n => List.replicate (w - (upper b n).length) ['0'] ++ [upper b n]

def hole : Item → Hole
  | .text s => .text s
  | .number b _ _ => .number b

def numbers : Item → List Nat
  | .text _ => []
  | .number _ _ n => [n]

def Within (k : Nat) : Item → Prop
  | .text _ => True
  | .number b w n => 1 < b ∧ b ≤ 16 ∧ w ≤ k ∧ n < b ^ k

def IsBase : Item → Prop
  | .text _ => True
  | .number b _ _ => 1 < b ∧ b ≤ 16

theorem within_text (k : Nat) (s : String) : (text s).Within k := trivial

theorem Within.isBase {k : Nat} {i : Item} (h : i.Within k) : i.IsBase := by
  cases i with
  | text => trivial
  | number => exact ⟨h.1, h.2.1⟩

end Item

def print (items : List Item) : List Char := (items.flatMap Item.pieces).flatten

def isDigit (c : Char) : Bool := (Numeral.digit c.toLower).isSome

def Delimited : List Hole → Prop
  | [] => True
  | .text _ :: holes => Delimited holes
  | .number _ :: .text s :: holes => (s.toList.head?.any fun c => !isDigit c) ∧ Delimited holes
  | .number _ :: _ => False

instance Delimited.decidable : (holes : List Hole) → Decidable (Delimited holes)
  | [] => inferInstanceAs (Decidable True)
  | .text _ :: holes => Delimited.decidable holes
  | .number _ :: .text _ :: holes =>
    haveI := Delimited.decidable holes
    inferInstanceAs (Decidable (_ ∧ _))
  | .number _ :: .number _ :: _ => inferInstanceAs (Decidable False)
  | [.number _] => inferInstanceAs (Decidable False)

def scan : List Hole → List Char → Option (List Nat × List Char)
  | [], s => some ([], s)
  | .text t :: holes, s => if t.toList <+: s then scan holes (s.drop t.toList.length) else none
  | .number b :: holes, s => do
    let n ← Numeral.read b ((s.takeWhile isDigit).map Char.toLower)
    let (ns, rest) ← scan holes (s.dropWhile isDigit)
    return (n :: ns, rest)

variable {items : List Item} {b w n k : Nat} {c : Char} {s rest : List Char}

theorem toLower_toUpper_digitChar : ∀ d < 16, d.digitChar.toUpper.toLower = d.digitChar := by
  decide

theorem mem_toDigits (hpos : 1 < b) (h : c ∈ Nat.toDigits b n) : ∃ d < b, c = d.digitChar := by
  induction n using Nat.base_induction b hpos with
  | single d hd =>
    rw [Nat.toDigits_of_lt_base hd, List.mem_singleton] at h
    exact ⟨d, hd, h⟩
  | digit m d hd hm ih =>
    rw [← Nat.toDigits_append_toDigits hpos hm hd, Nat.toDigits_of_lt_base hd, List.mem_append,
      List.mem_singleton] at h
    rcases h with h | h
    · exact ih h
    · exact ⟨d, hd, h⟩

theorem map_toLower_upper (hpos : 1 < b) (hb : b ≤ 16) (n : Nat) :
    (upper b n).map Char.toLower = Nat.toDigits b n := by
  rw [upper, List.map_map]
  conv_rhs => rw [← List.map_id (Nat.toDigits b n)]
  refine List.map_congr_left fun c hc => ?_
  obtain ⟨d, hd, rfl⟩ := mem_toDigits hpos hc
  exact toLower_toUpper_digitChar d (by omega)

theorem flatten_number (b w n : Nat) : (Item.number b w n).pieces.flatten =
    List.leftpad w '0' (upper b n) := by
  rw [Item.pieces, List.flatten_append, List.flatten_replicate_singleton, List.flatten_singleton]
  rfl

theorem map_toLower_number (hpos : 1 < b) (hb : b ≤ 16) (w n : Nat) :
    (Item.number b w n).pieces.flatten.map Char.toLower =
      List.leftpad w '0' (Nat.toDigits b n) := by
  rw [flatten_number, List.leftpad, List.map_append, map_toLower_upper hpos hb,
    List.map_replicate, upper, List.length_map]
  rfl

theorem read_number (hpos : 1 < b) (hb : b ≤ 16) (w n : Nat) :
    Numeral.read b ((Item.number b w n).pieces.flatten.map Char.toLower) = some n := by
  rw [map_toLower_number hpos hb, Numeral.read_leftpad_toDigits hpos hb]

theorem isDigit_of_mem_number (hpos : 1 < b) (hb : b ≤ 16)
    (h : c ∈ (Item.number b w n).pieces.flatten) : isDigit c := by
  have hmem := List.mem_map_of_mem (f := Char.toLower) h
  rw [map_toLower_number hpos hb] at hmem
  exact Numeral.isSome_digit_of_mem_leftpad hpos hb hmem

theorem print_cons (i : Item) (items : List Item) :
    print (i :: items) = i.pieces.flatten ++ print items := by
  rw [print, List.flatMap_cons, List.flatten_append, print]

theorem print_append (items items' : List Item) :
    print (items ++ items') = print items ++ print items' := by
  rw [print, List.flatMap_append, List.flatten_append, print, print]

theorem span_digits (hs : ∀ c ∈ s, isDigit c) (hrest : rest.head?.any fun c => !isDigit c) :
    (s ++ rest).takeWhile isDigit = s ∧ (s ++ rest).dropWhile isDigit = rest := by
  cases rest with
  | nil => simp at hrest
  | cons d rest =>
    have hd : ¬ isDigit d := by simpa using hrest
    rw [List.takeWhile_append_of_pos hs, List.dropWhile_append_of_pos hs,
      List.takeWhile_cons_of_neg hd, List.dropWhile_cons_of_neg hd, List.append_nil]
    exact ⟨rfl, rfl⟩

theorem scan_print (hbase : ∀ i ∈ items, i.IsBase) (hd : Delimited (items.map Item.hole))
    (rest : List Char) :
    scan (items.map Item.hole) (print items ++ rest) =
      some (items.flatMap Item.numbers, rest) := by
  induction items with
  | nil => rfl
  | cons i items ih =>
    obtain ⟨hi, hitems⟩ := List.forall_mem_cons.mp hbase
    cases i with
    | text t =>
      have hprint : print (.text t :: items) ++ rest = t.toList ++ (print items ++ rest) := by
        simp [print_cons, Item.pieces]
      rw [hprint]
      simp only [List.map_cons, Item.hole, scan, List.prefix_append, ↓reduceIte,
        List.drop_left', List.flatMap_cons, Item.numbers, List.nil_append]
      exact ih hitems hd
    | number b w n =>
      obtain ⟨hpos, hb⟩ := hi
      have hnext : ((print items ++ rest).head?.any fun c => !isDigit c) ∧
          Delimited (items.map Item.hole) := by
        cases items with
        | nil => exact absurd hd id
        | cons j items =>
          cases j with
          | number => exact absurd hd id
          | text t =>
            obtain ⟨hhead, hd⟩ := hd
            refine ⟨?_, hd⟩
            rw [print_cons, Item.pieces, List.flatten_singleton]
            rcases ht : t.toList with _ | ⟨c, l⟩
            · simp [ht] at hhead
            · simpa [ht] using hhead
      obtain ⟨htake, hdrop⟩ :=
        span_digits (fun c => isDigit_of_mem_number (c := c) (w := w) (n := n) hpos hb) hnext.1
      rw [print_cons, List.append_assoc, List.map_cons]
      simp only [Item.hole, scan, htake, hdrop, read_number hpos hb, ih hitems hnext.2,
        Option.bind_eq_bind, Option.bind_some]
      rfl

def room (k : Nat) : List Hole → Nat
  | [] => 0
  | .text s :: holes => s.toList.length + room k holes
  | .number _ :: holes => k + room k holes

theorem length_number_le (h : (Item.number b w n).Within k) (hk : 0 < k) :
    (Item.number b w n).pieces.flatten.length ≤ k := by
  obtain ⟨hpos, -, hw, hn⟩ := h
  rw [flatten_number, List.length_leftpad, upper, List.length_map]
  exact Nat.max_le.mpr ⟨hw, (Nat.length_toDigits_le_iff hpos hk).mpr hn⟩

theorem length_print_le (h : ∀ i ∈ items, i.Within k) (hk : 0 < k) :
    (print items).length ≤ room k (items.map Item.hole) := by
  induction items with
  | nil => exact Nat.zero_le _
  | cons i items ih =>
    obtain ⟨hi, hitems⟩ := List.forall_mem_cons.mp h
    rw [print_cons, List.length_append]
    cases i with
    | text s =>
      rw [Item.pieces, List.flatten_singleton]
      exact Nat.add_le_add_left (ih hitems) _
    | number b w n => exact Nat.add_le_add (length_number_le hi hk) (ih hitems)

def Hole.Ascii : Hole → Prop
  | .text s => s.toList.all fun c => c.val ≤ 127
  | .number _ => True

instance : DecidablePred Hole.Ascii
  | .text s => inferInstanceAs (Decidable (s.toList.all (fun c => c.val ≤ 127) = true))
  | .number _ => inferInstanceAs (Decidable True)

theorem val_le_of_mem_number (hpos : 1 < b) (hb : b ≤ 16)
    (h : c ∈ (Item.number b w n).pieces.flatten) : c.val ≤ 127 := by
  have hupper : ∀ d < 16, d.digitChar.toUpper.val ≤ 127 := by decide
  rw [flatten_number] at h
  rcases List.mem_append.mp h with h | h
  · rw [List.eq_of_mem_replicate h]
    decide
  · obtain ⟨c', hc', rfl⟩ := List.mem_map.mp h
    obtain ⟨d, hd, rfl⟩ := mem_toDigits hpos hc'
    exact hupper d (by omega)

theorem val_le_of_mem_print (hbase : ∀ i ∈ items, i.IsBase)
    (hascii : ∀ h ∈ items.map Item.hole, h.Ascii) (h : c ∈ print items) : c.val ≤ 127 := by
  simp only [print, List.flatMap, List.mem_flatten, List.mem_map] at h
  obtain ⟨piece, ⟨-, ⟨i, hi, rfl⟩, hpiece⟩, hc⟩ := h
  cases i with
  | text s =>
    obtain rfl := List.mem_singleton.mp hpiece
    exact of_decide_eq_true (List.all_eq_true.mp (hascii _ (List.mem_map_of_mem hi)) c hc)
  | number b w n =>
    obtain ⟨hpos, hb⟩ := hbase _ hi
    exact val_le_of_mem_number hpos hb (List.mem_flatten_of_mem hpiece hc)

end Template
