import FerricK.Lib.Words
import Mathlib.Data.List.Nodup

namespace FerricK.Shell

open Words

inductive Command where
  | empty
  | help
  | clear
  | echo (args : List Char)
  | uptime
  | arch
  | panic
  | clock
  | gui
  | monitor
  | keyboard
  | halt
  | unknown (name : List Char)
  deriving DecidableEq, Repr

def isWhitespace (c : Char) : Bool :=
  let n := c.toNat
  (0x09 ≤ n && n ≤ 0x0d) || n == 0x20 || n == 0x85 || n == 0xa0 || n == 0x1680 ||
    (0x2000 ≤ n && n ≤ 0x200a) || n == 0x2028 || n == 0x2029 || n == 0x202f || n == 0x205f ||
    n == 0x3000

/-- The length of `name` is in bytes; `Char.toLower` is `to_ascii_lowercase`. -/
def isName (token : List Char) (name : String) : Bool :=
  token.length == name.utf8ByteSize &&
    (token.zip name.toList).all fun p => p.1.toLower == p.2

/-- The two loops of `trim` are the two of `Words.trim`, from the left and then from the right. -/
def trim (slice : List Char) : List Char := Words.trim isWhitespace slice

def parseCommand (line : List Char) : Command :=
  let line := trim line
  if line.isEmpty then .empty else
  let headLen := (line.findIdx? isWhitespace).getD line.length
  let (name, rest) := line.splitAt headLen
  let rest := trim rest
  if isName name "help" then .help
  else if isName name "clear" then .clear
  else if isName name "echo" then .echo rest
  else if isName name "uptime" then .uptime
  else if isName name "arch" then .arch
  else if isName name "panic" then .panic
  else if isName name "clock" then .clock
  else if isName name "gui" then .gui
  else if isName name "monitor" then .monitor
  else if isName name "keyboard" then .keyboard
  else if isName name "halt" then .halt
  else .unknown name

def builtins : List (String × (List Char → Command)) :=
  [("help", fun _ => .help), ("clear", fun _ => .clear), ("echo", .echo),
    ("uptime", fun _ => .uptime), ("arch", fun _ => .arch), ("panic", fun _ => .panic),
    ("clock", fun _ => .clock), ("gui", fun _ => .gui), ("monitor", fun _ => .monitor),
    ("keyboard", fun _ => .keyboard), ("halt", fun _ => .halt)]

def SameName (name name' : List Char) : Prop := name.map Char.toLower = name'.map Char.toLower

def dispatch (name rest : List Char) : Command :=
  ((builtins.find? fun b => isName name b.1).map (·.2 rest)).getD (.unknown name)

variable {pre name name' tail rest : List Char}

theorem all_zip_toLower (token name : List Char) (h : token.length = name.length) :
    ((token.zip name).all fun p => p.1.toLower == p.2) = true ↔ token.map Char.toLower = name := by
  induction token generalizing name with
  | nil => cases name <;> simp_all
  | cons c token ih =>
    cases name with
    | nil => exact nomatch h
    | cons d name =>
      have htail := ih name (Nat.succ.inj h)
      simp_all

theorem isName_iff {token : List Char} {b : String × (List Char → Command)} (hb : b ∈ builtins) :
    isName token b.1 = true ↔ SameName token b.1.toList := by
  have hname : ∀ b ∈ builtins,
      b.1.utf8ByteSize = b.1.toList.length ∧ b.1.toList.map Char.toLower = b.1.toList := by
    decide
  obtain ⟨hsize, hlower⟩ := hname b hb
  rw [isName, SameName, hlower, hsize, Bool.and_eq_true, beq_iff_eq]
  constructor
  · rintro ⟨hlength, hall⟩
    exact (all_zip_toLower _ _ hlength).mp hall
  · intro h
    have hlength : token.length = b.1.toList.length := by rw [← h, List.length_map]
    exact ⟨hlength, (all_zip_toLower _ _ hlength).mpr h⟩

theorem dispatch_builtin {b : String × (List Char → Command)} (hb : b ∈ builtins)
    (h : SameName name b.1.toList) : dispatch name rest = b.2 rest := by
  have hnames : (builtins.map (·.1)).Nodup := by decide
  obtain ⟨b', hfind⟩ : ∃ b', builtins.find? (fun b => isName name b.1) = some b' :=
    Option.isSome_iff_exists.mp (List.find?_isSome.mpr ⟨b, hb, (isName_iff hb).mpr h⟩)
  have hb' : b' ∈ builtins := List.mem_of_find?_eq_some hfind
  have hlower : ∀ b ∈ builtins, b.1.toList.map Char.toLower = b.1.toList := by decide
  have hsame : SameName name b'.1.toList := by
    have hfound := List.find?_some hfind
    exact (isName_iff hb').mp hfound
  have hname : b.1 = b'.1 := by
    rw [← String.toList_inj, ← hlower b hb, ← hlower b' hb']
    exact h.symm.trans hsame
  rw [dispatch, hfind, List.inj_on_of_nodup_map hnames hb hb' hname, Option.map_some,
    Option.getD_some]

theorem dispatch_unknown (h : ∀ b ∈ builtins, ¬ SameName name b.1.toList) :
    dispatch name rest = .unknown name := by
  have hfind : builtins.find? (fun b => isName name b.1) = none := by
    rw [List.find?_eq_none]
    exact fun b hb hname => h b hb ((isName_iff hb).mp hname)
  rw [dispatch, hfind, Option.map_none, Option.getD_none]

theorem dispatch_ne_empty (name rest : List Char) : dispatch name rest ≠ .empty := by
  have hbuiltins : ∀ b ∈ builtins, b.2 rest ≠ .empty := by simp [builtins]
  rw [dispatch]
  cases hfind : builtins.find? fun b => isName name b.1 with
  | none => exact nofun
  | some b => exact hbuiltins b (List.mem_of_find?_eq_some hfind)

theorem getD_find?_cons {α β : Type*} (p : α → Bool) (f : α → β) (d : β) (a : α) (l : List α) :
    (((a :: l).find? p).map f).getD d = if p a then f a else ((l.find? p).map f).getD d := by
  rw [List.find?_cons]
  cases p a <;> rfl

theorem parseCommand_eq (h : FirstRun isWhitespace pre name tail) :
    parseCommand (pre ++ name ++ tail) = dispatch name (trim tail) := by
  have hne : ¬ (name ++ tail.rdropWhile isWhitespace).isEmpty = true := by simp [h.ne_nil]
  rw [parseCommand, trim, h.trim_eq, if_neg hne]
  simp only [h.rdropWhile.splitAt_eq, trim, trim_rdropWhile, dispatch, builtins, getD_find?_cons,
    List.find?_nil, Option.map_none, Option.getD_none]

theorem parseCommand_empty_iff (line : List Char) :
    parseCommand line = .empty ↔ ∀ c ∈ line, isWhitespace c = true := by
  constructor
  · intro hempty c hc
    by_contra hsolid
    obtain ⟨pre, name, tail, rfl, h⟩ := exists_firstRun ⟨c, hc, Bool.eq_false_iff.mpr hsolid⟩
    exact dispatch_ne_empty _ _ ((parseCommand_eq h).symm.trans hempty)
  · intro hblank
    rw [parseCommand, trim, trim_eq_nil_iff.mpr hblank]
    rfl

theorem parseCommand_pad {line post : List Char} (hpre : ∀ c ∈ pre, isWhitespace c = true)
    (hpost : ∀ c ∈ post, isWhitespace c = true) :
    parseCommand (pre ++ line ++ post) = parseCommand line := by
  rw [parseCommand, parseCommand, trim, trim_pad hpre hpost, trim]

theorem isWhitespace_toLower (c : Char) : isWhitespace c.toLower = isWhitespace c := by
  unfold Char.toLower
  split
  · rename_i h
    obtain ⟨hA, hZ⟩ := h
    rw [ge_iff_le, UInt32.le_iff_toNat_le] at hA
    rw [UInt32.le_iff_toNat_le] at hZ
    have hupper : 65 ≤ c.toNat ∧ c.toNat ≤ 90 := ⟨hA, hZ⟩
    have hlower : (c.val + ('a'.val - 'A'.val)).toNat = c.toNat + 32 := by
      rw [UInt32.toNat_add, Nat.mod_eq_of_lt]
      · rfl
      · change c.toNat + 32 < 2 ^ 32
        omega
    unfold isWhitespace
    have hmk : ∀ h, (Char.mk (c.val + ('a'.val - 'A'.val)) h).toNat = c.toNat + 32 :=
      fun _ => hlower
    rw [hmk]
    grind
  · rfl

/-- Where a name starts and ends does not depend on its case. -/
theorem firstRun_of_sameName (h : FirstRun isWhitespace pre name tail)
    (hsame : SameName name' name) : FirstRun isWhitespace pre name' tail where
  before := h.before
  ne_nil := by
    rintro rfl
    exact h.ne_nil (List.map_eq_nil_iff.mp hsame.symm)
  solid := by
    intro c hc
    obtain ⟨d, hd, hlower⟩ : ∃ d ∈ name, d.toLower = c.toLower := by
      rw [← List.mem_map, ← hsame]
      exact List.mem_map_of_mem hc
    rw [← isWhitespace_toLower, ← hlower, isWhitespace_toLower, h.solid d hd]
  maximal := h.maximal

theorem solid_of_all {name : List Char} (h : name.all (fun c => !isWhitespace c) = true) :
    ∀ c ∈ name, isWhitespace c = false := fun c hc =>
  Bool.not_eq_true' _ ▸ List.all_eq_true.mp h c hc

theorem parseCommand_named (h : FirstRun isWhitespace pre name tail)
    (hrest : Trimmed isWhitespace tail rest) :
    parseCommand (pre ++ name ++ tail) = dispatch name rest := by
  rw [parseCommand_eq h, trim, hrest.trim_eq]

theorem parseCommand_recase (h : FirstRun isWhitespace pre name tail)
    (hsame : SameName name' name) :
    ((∃ b ∈ builtins, SameName name b.1.toList) →
      parseCommand (pre ++ name' ++ tail) = parseCommand (pre ++ name ++ tail)) ∧
    ((∀ b ∈ builtins, ¬ SameName name b.1.toList) →
      parseCommand (pre ++ name' ++ tail) = .unknown name') := by
  rw [parseCommand_eq h, parseCommand_eq (firstRun_of_sameName h hsame)]
  constructor
  · rintro ⟨b, hb, hname⟩
    rw [dispatch_builtin hb hname, dispatch_builtin hb (hsame.trans hname)]
  · intro hunknown
    apply dispatch_unknown
    exact fun b hb hname => hunknown b hb (hsame.symm.trans hname)

theorem parseCommand_echo {gap arg : List Char} (hgap : gap ≠ [])
    (hblank : ∀ c ∈ gap, isWhitespace c = true) (htight : Tight isWhitespace arg) :
    parseCommand ("echo".toList ++ gap ++ arg) = .echo arg := by
  have hecho : FirstRun isWhitespace [] "echo".toList (gap ++ arg) := by
    refine ⟨nofun, by decide, solid_of_all rfl, ?_⟩
    intro c hc
    cases gap with
    | nil => exact absurd rfl hgap
    | cons d gap =>
      obtain rfl : d = c := Option.some.inj hc
      exact hblank d List.mem_cons_self
  have hrest : Trimmed isWhitespace (gap ++ arg) arg :=
    ⟨htight, gap, [], hblank, nofun, (List.append_nil _).symm⟩
  have hparse := parseCommand_named hecho hrest
  rw [List.nil_append, ← List.append_assoc] at hparse
  rw [hparse]
  exact dispatch_builtin (b := ("echo", .echo)) (by simp [builtins]) rfl

theorem parse_command_parses :
    (∀ line, parseCommand line = .empty ↔ ∀ c ∈ line, isWhitespace c = true) ∧
    (∀ line, (∃ c ∈ line, isWhitespace c = false) → ∃ pre name tail rest,
      line = pre ++ name ++ tail ∧ FirstRun isWhitespace pre name tail ∧
        Trimmed isWhitespace tail rest) ∧
    (∀ pre name tail rest, FirstRun isWhitespace pre name tail →
      Trimmed isWhitespace tail rest →
      (∀ b ∈ builtins, SameName name b.1.toList →
        parseCommand (pre ++ name ++ tail) = b.2 rest) ∧
      ((∀ b ∈ builtins, ¬ SameName name b.1.toList) →
        parseCommand (pre ++ name ++ tail) = .unknown name)) ∧
    (∀ pre line post, (∀ c ∈ pre, isWhitespace c = true) → (∀ c ∈ post, isWhitespace c = true) →
      parseCommand (pre ++ line ++ post) = parseCommand line) ∧
    (∀ pre name name' tail, FirstRun isWhitespace pre name tail → SameName name' name →
      ((∃ b ∈ builtins, SameName name b.1.toList) →
        parseCommand (pre ++ name' ++ tail) = parseCommand (pre ++ name ++ tail)) ∧
      ((∀ b ∈ builtins, ¬ SameName name b.1.toList) →
        parseCommand (pre ++ name' ++ tail) = .unknown name')) ∧
    (∀ gap arg, gap ≠ [] → (∀ c ∈ gap, isWhitespace c = true) → arg ≠ [] →
      Tight isWhitespace arg → parseCommand ("echo".toList ++ gap ++ arg) = .echo arg) := by
  refine ⟨parseCommand_empty_iff, ?_, ?_, fun _ _ _ => parseCommand_pad,
    fun _ _ _ _ => parseCommand_recase, fun _ _ hgap hblank _ => parseCommand_echo hgap hblank⟩
  · intro line hline
    obtain ⟨pre, name, tail, heq, h⟩ := exists_firstRun hline
    exact ⟨pre, name, tail, _, heq, h, trimmed_trim _ tail⟩
  · intro pre name tail rest h hrest
    rw [parseCommand_named h hrest]
    exact ⟨fun b hb hsame => dispatch_builtin hb hsame, dispatch_unknown⟩

/-- An unknown command carries its name as it was typed. -/
theorem parse_command_keeps_case :
    ¬ ∀ pre name name' tail, FirstRun isWhitespace pre name tail → SameName name' name →
      parseCommand (pre ++ name' ++ tail) = parseCommand (pre ++ name ++ tail) := by
  intro h
  have hcase := h [] ['x'] ['X'] [] ⟨nofun, by decide, solid_of_all rfl, nofun⟩ rfl
  exact absurd hcase (by decide)

end FerricK.Shell
