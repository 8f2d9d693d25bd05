import FerricK.Monitor.Text
import Mathlib.Data.List.Basic

namespace FerricK.Smoke

/-- `[name]` is one key, and every other character another. -/
def inputTokens : List Char → List (List Char)
  | [] => []
  | first :: tail =>
    match if first = '[' then tail.findIdx? (· = ']') else none with
    | some n => tail.take n :: inputTokens (tail.drop (n + 1))
    | none => [first] :: inputTokens tail
termination_by command => command.length
decreasing_by
  · rw [List.length_drop, List.length_cons]
    omega
  · exact Nat.lt_succ_self _

/-- The names that the monitor has for three of the characters. -/
def hmp (token : List Char) : List Char :=
  if token = ['\r'] then "ret".toList
  else if token = [' '] then "spc".toList
  else if token = ['\x1B'] then "esc".toList
  else token

def chunks : List UInt8 → List (List UInt8)
  | [] => []
  | b :: bytes => (b :: bytes.take 3) :: chunks (bytes.drop 3)
termination_by bytes => bytes.length
decreasing_by
  rw [List.length_drop, List.length_cons]
  omega

def monitorCommands (command : List Char) : List (List Char) :=
  (inputTokens command).map fun token => "sendkey ".toList ++ hmp token

def serialWrites (command : List Char) : List (List UInt8) :=
  (inputTokens command).flatMap fun token => chunks (asBytes token)

inductive Key
  | char (c : Char)
  | named (name : List Char)

def Key.text : Key → List Char
  | .char c => [c]
  | .named name => name

def Key.written : Key → List Char
  | .char c => [c]
  | .named name => '[' :: name ++ [']']

def written (ks : List Key) : List Char := ks.flatMap Key.written

/-- A bracket that is a key of its own is not closed later on. -/
def WellFormed : List Key → Prop
  | [] => True
  | .char c :: ks => (c = '[' → ']' ∉ written ks) ∧ WellFormed ks
  | .named name :: ks => ']' ∉ name ∧ WellFormed ks

variable {c : Char} {name tail : List Char}

theorem findIdx?_bracket (h : ']' ∉ tail) : tail.findIdx? (· = ']') = none := by
  rw [List.findIdx?_eq_none_iff]
  rintro x hx
  exact decide_eq_false fun heq => h (heq ▸ hx)

theorem inputTokens_char (h : c = '[' → ']' ∉ tail) :
    inputTokens (c :: tail) = [c] :: inputTokens tail := by
  rw [inputTokens]
  by_cases hc : c = '['
  · rw [if_pos hc, findIdx?_bracket (h hc)]
  · rw [if_neg hc]

theorem inputTokens_named (h : ']' ∉ name) :
    inputTokens ('[' :: (name ++ ']' :: tail)) = name :: inputTokens tail := by
  have hfind : (name ++ ']' :: tail).findIdx? (· = ']') = some name.length := by
    rw [List.findIdx?_append, findIdx?_bracket h, List.findIdx?_cons]
    simp
  rw [inputTokens, if_pos rfl, hfind]
  simp

theorem exists_key (c : Char) (tail : List Char) : ∃ k rest, c :: tail = Key.written k ++ rest ∧
    (∀ ks, WellFormed ks → written ks = rest → WellFormed (k :: ks)) ∧
    inputTokens (c :: tail) = k.text :: inputTokens rest := by
  by_cases h : c = '[' ∧ ']' ∈ tail
  · obtain ⟨name, rest, rfl, hname⟩ := List.eq_append_cons_of_mem h.2
    rw [h.1]
    refine ⟨.named name, rest, by simp [Key.written], fun ks hks _ => ⟨hname, hks⟩, ?_⟩
    exact inputTokens_named hname
  · have hopen : c = '[' → ']' ∉ tail := fun hc hmem => h ⟨hc, hmem⟩
    refine ⟨.char c, tail, rfl, fun ks hks heq => ⟨?_, hks⟩, inputTokens_char hopen⟩
    rw [heq]
    exact hopen

theorem Key.written_ne_nil (k : Key) : k.written ≠ [] := by
  cases k <;> exact List.cons_ne_nil _ _

theorem exists_keys (s : List Char) : ∃ ks, WellFormed ks ∧ written ks = s ∧
    inputTokens s = ks.map Key.text := by
  induction h : s.length using Nat.strong_induction_on generalizing s with
  | _ n ih =>
    cases s with
    | nil => exact ⟨[], trivial, rfl, by rw [inputTokens]; rfl⟩
    | cons c tail =>
      obtain ⟨k, rest, hs, hwf, htokens⟩ := exists_key c tail
      have hlength := congrArg List.length hs
      have hpos := List.length_pos_iff.mpr k.written_ne_nil
      rw [List.length_append] at hlength
      obtain ⟨ks, hks, hwritten, hrest⟩ := ih rest.length (by omega) rest rfl
      refine ⟨k :: ks, hwf ks hks hwritten, ?_, ?_⟩
      · rw [hs, ← hwritten]
        rfl
      · rw [htokens, hrest]
        rfl

theorem written_cons (k : Key) (ks : List Key) : written (k :: ks) = k.written ++ written ks :=
  List.flatMap_cons

theorem name_inj {name' tail' : List Char} (h : ']' ∉ name) (h' : ']' ∉ name')
    (heq : name ++ ']' :: tail = name' ++ ']' :: tail') : name = name' ∧ tail = tail' := by
  rcases List.append_eq_append_iff.mp heq with ⟨l, rfl, hl⟩ | ⟨l, rfl, hl⟩
  all_goals
    cases l with
    | nil => exact ⟨by simp, by simp_all⟩
    | cons c l => simp_all

theorem written_inj {ks ks' : List Key} (hks : WellFormed ks) (hks' : WellFormed ks')
    (h : written ks = written ks') : ks = ks' := by
  induction ks generalizing ks' with
  | nil =>
    cases ks' with
    | nil => rfl
    | cons k ks' => exact absurd (List.append_eq_nil_iff.mp h.symm).1 k.written_ne_nil
  | cons k ks ih =>
    cases ks' with
    | nil => exact absurd (List.append_eq_nil_iff.mp h).1 k.written_ne_nil
    | cons k' ks' =>
      rw [written_cons, written_cons] at h
      cases k with
      | char c =>
        cases k' with
        | char c' =>
          obtain ⟨rfl, htail⟩ := List.cons.inj h
          rw [ih hks.2 hks'.2 htail]
        | named name' =>
          obtain ⟨rfl, htail⟩ := List.cons.inj h
          refine absurd ?_ (hks.1 rfl)
          rw [show written ks = _ from htail]
          simp
      | named name =>
        cases k' with
        | char c' =>
          obtain ⟨rfl, htail⟩ := List.cons.inj h
          refine absurd ?_ (hks'.1 rfl)
          rw [show written ks' = _ from htail.symm]
          simp
        | named name' =>
          have htail : name ++ [']'] ++ written ks = name' ++ [']'] ++ written ks' :=
            (List.cons.inj h).2
          rw [List.append_assoc, List.append_assoc] at htail
          obtain ⟨rfl, hrest⟩ := name_inj hks.1 hks'.1 htail
          rw [ih hks.2 hks'.2 hrest]

theorem flatten_chunks (bytes : List UInt8) : (chunks bytes).flatten = bytes := by
  induction bytes using chunks.induct with
  | case1 => rw [chunks]; rfl
  | case2 b bytes ih => rw [chunks, List.flatten_cons, ih, List.cons_append, List.take_append_drop]

theorem length_of_mem_chunks {bytes chunk : List UInt8} (h : chunk ∈ chunks bytes) :
    0 < chunk.length ∧ chunk.length ≤ 4 := by
  induction bytes using chunks.induct with
  | case1 =>
    rw [chunks] at h
    cases h
  | case2 b bytes ih =>
    rw [chunks, List.mem_cons] at h
    rcases h with rfl | h
    · rw [List.length_cons, List.length_take]
      omega
    · exact ih h

/-- A command is written by one list of keys, and what goes out are these keys in order: to the
monitor a name for each, and on the serial line the bytes of their texts, at most four at a time. -/
theorem command_keys (command : List Char) : ∃ ks,
    (WellFormed ks ∧ written ks = command ∧
      ∀ ks', WellFormed ks' → written ks' = command → ks' = ks) ∧
    monitorCommands command = ks.map (fun k => "sendkey ".toList ++ hmp k.text) ∧
    (serialWrites command).flatten = asBytes (ks.flatMap Key.text) ∧
    ∀ chunk ∈ serialWrites command, 0 < chunk.length ∧ chunk.length ≤ 4 := by
  obtain ⟨ks, hks, hwritten, htokens⟩ := exists_keys command
  refine ⟨ks, ⟨hks, hwritten, ?_⟩, ?_, ?_, ?_⟩
  · exact fun ks' hks' heq => written_inj hks' hks (heq.trans hwritten.symm)
  · rw [monitorCommands, htokens, List.map_map]
    rfl
  · rw [serialWrites, htokens]
    clear hks hwritten htokens
    induction ks with
    | nil => rfl
    | cons k ks ih =>
      rw [List.map_cons, List.flatMap_cons, List.flatten_append, flatten_chunks, ih,
        List.flatMap_cons, asBytes_append]
  · intro chunk hchunk
    obtain ⟨token, -, hmem⟩ := List.mem_flatMap.mp hchunk
    exact length_of_mem_chunks hmem

/-- An arrow between two characters, and a bracket that nothing closes. -/
example : inputTokens "a[right]b[".toList =
    ["a".toList, "right".toList, "b".toList, "[".toList] := by
  simp [inputTokens, List.findIdx?_cons]

end FerricK.Smoke
