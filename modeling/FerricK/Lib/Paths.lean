import Mathlib.Data.List.Infix
import Mathlib.Tactic.Common

namespace Paths

abbrev Name := List Char

inductive Component
  | parentDir
  | normal (name : Name)
  deriving DecidableEq

/-- An empty piece between two separators, and `.`, lead nowhere. -/
def Component.ofPiece (piece : Name) : Option Component :=
  if piece = [] ∨ piece = ['.'] then none
  else if piece = ['.', '.'] then some .parentDir
  else some (.normal piece)

def Component.name : Component → Name
  | .parentDir => ['.', '.']
  | .normal name => name

structure PathBuf where
  absolute : Bool
  components : List Component
  deriving DecidableEq

def join (base name : List Char) : List Char :=
  if name.head? = some '/' then name
  else if base = [] ∨ base.getLast? = some '/' then base ++ name
  else base ++ '/' :: name

/-- A directory is the names that lead to it from the root, which is its own parent. -/
def step (dir : List Name) : Component → List Name
  | .parentDir => dir.dropLast
  | .normal name => dir ++ [name]

def walk (dir : List Name) (cs : List Component) : List Name := cs.foldl step dir

namespace PathBuf

def parse (text : List Char) : PathBuf where
  absolute := text.head? = some '/'
  components := (text.splitOn '/').filterMap Component.ofPiece

def join (base p : PathBuf) : PathBuf :=
  if p.absolute then p else { base with components := base.components ++ p.components }

def parent (p : PathBuf) : Option PathBuf :=
  if p.components = [] then none else some { p with components := p.components.dropLast }

/-- No name in it has a NUL, which no file system call takes. -/
def Plain (p : PathBuf) : Prop := ∀ c ∈ p.components, '\x00' ∉ c.name

instance (p : PathBuf) : Decidable p.Plain :=
  inferInstanceAs (Decidable (∀ c ∈ p.components, '\x00' ∉ c.name))

def start (cwd : List Name) (p : PathBuf) : List Name := if p.absolute then [] else cwd

def resolve (cwd : List Name) (p : PathBuf) : List Name := walk (p.start cwd) p.components

end PathBuf

variable {dir cwd : List Name} {cs : List Component} {base name : List Char} {p q : PathBuf}

theorem walk_append (dir : List Name) (cs ds : List Component) :
    walk dir (cs ++ ds) = walk (walk dir cs) ds := List.foldl_append

theorem prefix_walk (h : .parentDir ∉ cs) : dir <+: walk dir cs := by
  induction cs generalizing dir with
  | nil => exact List.prefix_rfl
  | cons c cs ih =>
    cases c with
    | parentDir => simp at h
    | normal name =>
      have hrest : .parentDir ∉ cs := fun hc => h (List.mem_cons_of_mem _ hc)
      exact (List.prefix_append dir [name]).trans (ih hrest)

theorem infix_of_mem_intercalate {sep : List α} {l : List α} {ls : List (List α)}
    (h : l ∈ ls) : l <:+: sep.intercalate ls := by
  induction ls with
  | nil => cases h
  | cons head rest ih =>
    cases rest with
    | nil =>
      rw [List.mem_singleton.mp h, List.intercalate_singleton]
    | cons next rest =>
      rw [List.intercalate_cons_cons]
      rcases List.mem_cons.mp h with rfl | hrest
      · rw [List.append_assoc]
        exact (List.prefix_append _ _).isInfix
      · exact (ih hrest).trans (List.suffix_append _ _).isInfix

theorem parentDir_notMem_parse (h : ¬ ['.', '.'] <:+: name) :
    .parentDir ∉ (PathBuf.parse name).components := by
  intro hc
  obtain ⟨piece, hpiece, hof⟩ := List.mem_filterMap.mp hc
  have hdots : piece = ['.', '.'] := by
    unfold Component.ofPiece at hof
    grind
  have hinfix : piece <:+: ['/'].intercalate (name.splitOn '/') := infix_of_mem_intercalate hpiece
  rw [List.intercalate_splitOn, hdots] at hinfix
  exact h hinfix

theorem components_append_cons (a b : List Char) :
    (PathBuf.parse (a ++ '/' :: b)).components =
      (PathBuf.parse a).components ++ (PathBuf.parse b).components := by
  simp only [PathBuf.parse, List.splitOn_append_cons_self, List.filterMap_append]

@[simp] theorem components_parse_nil : (PathBuf.parse []).components = [] := by
  simp [PathBuf.parse, Component.ofPiece]

theorem components_append (h : base = [] ∨ base.getLast? = some '/') (name : List Char) :
    (PathBuf.parse (base ++ name)).components =
      (PathBuf.parse base).components ++ (PathBuf.parse name).components := by
  rcases h with rfl | hlast
  · rw [components_parse_nil, List.nil_append, List.nil_append]
  · obtain ⟨front, rfl⟩ := List.getLast?_eq_some_iff.mp hlast
    rw [List.append_assoc, List.singleton_append, components_append_cons, components_append_cons,
      components_parse_nil, List.append_nil]

theorem absolute_append (h : name.head? ≠ some '/') (sep : List Char)
    (hsep : base = [] → sep = []) :
    (PathBuf.parse (base ++ (sep ++ name))).absolute = (PathBuf.parse base).absolute := by
  cases base with
  | nil =>
    rw [hsep rfl]
    simpa [PathBuf.parse] using h
  | cons c base => rfl

theorem parse_join (base name : List Char) :
    PathBuf.parse (join base name) = (PathBuf.parse base).join (PathBuf.parse name) := by
  unfold join PathBuf.join
  by_cases hname : name.head? = some '/'
  · have habsolute : (PathBuf.parse name).absolute = true := decide_eq_true hname
    rw [if_pos hname, if_pos habsolute]
  · have hrelative : ¬ (PathBuf.parse name).absolute = true := by simpa [PathBuf.parse] using hname
    rw [if_neg hname, if_neg hrelative]
    by_cases hbase : base = [] ∨ base.getLast? = some '/'
    · rw [if_pos hbase]
      exact congrArg₂ PathBuf.mk (absolute_append hname [] fun _ => rfl)
        (components_append hbase name)
    · have hne : base ≠ [] := fun h => hbase (.inl h)
      rw [if_neg hbase]
      exact congrArg₂ PathBuf.mk (absolute_append hname ['/'] fun h => absurd h hne)
        (components_append_cons base name)

theorem join_of_absolute (h : q.absolute = true) : p.join q = q := if_pos h

theorem join_of_relative (h : q.absolute = false) :
    p.join q = { p with components := p.components ++ q.components } := by
  simp [PathBuf.join, h]

theorem mem_parent (h : q ∈ p.parent) :
    p.components ≠ [] ∧ q = { p with components := p.components.dropLast } := by
  unfold PathBuf.parent at h
  split at h
  · cases h
  · rename_i hne
    exact ⟨hne, (Option.some.inj h).symm⟩

theorem PathBuf.Plain.parent (hp : p.Plain) (h : q ∈ p.parent) : q.Plain := by
  obtain ⟨-, rfl⟩ := mem_parent h
  exact fun c hc => hp c (List.mem_of_mem_dropLast hc)

theorem exists_parent_of_prefix (h : cs <+: p.components) (hne : cs ≠ p.components) :
    ∃ q ∈ p.parent, q.absolute = p.absolute ∧ cs <+: q.components := by
  rcases List.eq_nil_or_concat p.components with hnil | ⟨front, last, hconcat⟩
  · rw [hnil] at h hne
    exact absurd (List.prefix_nil.mp h) hne
  · have hparent : p.parent = some { p with components := front } := by
      simp [PathBuf.parent, hconcat]
    rw [hconcat, List.concat_eq_append] at h hne
    exact ⟨_, hparent, rfl, (List.prefix_concat_iff.mp h).resolve_left hne⟩

end Paths
