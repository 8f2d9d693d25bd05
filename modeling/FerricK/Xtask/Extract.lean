import FerricK.Lib.Paths

namespace FerricK.Extract

open Paths

structure ZipEntry where
  name : List Char
  isDir : Bool

inductive Call
  | openZip
  | readArchive
  | byIndex (entry : ZipEntry)
  | createDirAll (path : PathBuf)
  | createFile (path : PathBuf)
  | copy (path : PathBuf)

/-- `answer` is the text of the error a call answers with, if any, after the calls before it;
`debug` prints a path as `{:?}` does. -/
structure Host where
  answer : List Call → Call → Option String
  debug : List Char → String

structure Run where
  calls : List Call
  error : Option String

structure Request where
  call : Call
  text : String → String

/-- `call.map_err(text)?`: after an error nothing more is called. -/
def Run.request (host : Host) (run : Run) (req : Request) : Run :=
  match run.error with
  | some _ => run
  | none => ⟨run.calls ++ [req.call], (host.answer run.calls req.call).map req.text⟩

def mkdir (path : PathBuf) : Request := ⟨.createDirAll path, fun e => s!"mkdir: {e}"⟩

def extractEntry (host : Host) (dest : List Char) (run : Run) (entry : ZipEntry) : Run :=
  let run := run.request host ⟨.byIndex entry, fun e => s!"zip entry: {e}"⟩
  let out := join dest entry.name
  if entry.isDir then run.request host (mkdir (.parse out))
  else if ['.', '.'] <:+: entry.name then run
  else
    let run := match (PathBuf.parse out).parent with
      | some parent => run.request host (mkdir parent)
      | none => run
    let run := run.request host
      ⟨.createFile (.parse out), fun e => s!"create {host.debug out}: {e}"⟩
    run.request host ⟨.copy (.parse out), fun e => s!"extract write: {e}"⟩

def extractZip (host : Host) (zip dest : List Char) (entries : List ZipEntry) : Run :=
  let run := Run.request host ⟨[], none⟩
    ⟨.openZip, fun e => s!"cannot open {host.debug zip}: {e}"⟩
  let run := run.request host ⟨.readArchive, fun e => s!"invalid zip: {e}"⟩
  entries.foldl (extractEntry host dest) run

/-- Where an archive is unpacked: the directories there already, the current one and `dest`. -/
structure Site where
  dirs : List (List Name)
  cwd : List Name
  dest : List Char
  /-- Those above `dest` are there, as the archive is stored beside it. -/
  above : ∀ cs ∈ (PathBuf.parse dest).components.inits, cs ≠ (PathBuf.parse dest).components →
    walk ((PathBuf.parse dest).start cwd) cs ∈ dirs

namespace Site

def Inside (site : Site) (place : List Name) : Prop :=
  (PathBuf.parse site.dest).resolve site.cwd <+: place

/-- What a call can make: `create_dir_all` makes each missing directory on the way, and no call
takes a name with a NUL. -/
inductive Makes (site : Site) : Call → List Name → Prop
  | dir (hplain : path.Plain) (hway : cs <+: path.components)
    (hnew : walk (path.start site.cwd) cs ∉ site.dirs) :
    site.Makes (.createDirAll path) (walk (path.start site.cwd) cs)
  | file (hplain : path.Plain) (hnew : path.resolve site.cwd ∉ site.dirs) :
    site.Makes (.createFile path) (path.resolve site.cwd)

def Clear (site : Site) (call : Call) : Prop := ∀ place, site.Makes call place → site.Inside place

def Contained (site : Site) (calls : List Call) : Prop := ∀ call ∈ calls, site.Clear call

/-- The way to `path` passes only directories that are there, and places in `dest`. -/
def Within (site : Site) (path : PathBuf) : Prop :=
  ∀ cs ∈ path.components.inits,
    walk (path.start site.cwd) cs ∈ site.dirs ∨ site.Inside (walk (path.start site.cwd) cs)

/-- A directory's name is followed from `dest`, and its way has to stay there.  A file's has `..`
in it, or is relative, or has to lead into `dest` from the root. -/
def Safe (site : Site) (entry : ZipEntry) : Prop :=
  let name := PathBuf.parse entry.name
  let out := (PathBuf.parse site.dest).join name
  if entry.isDir then out.Plain → site.Within out
  else ['.', '.'] <:+: entry.name ∨ name.absolute = false ∨
    ∀ path ∈ name :: name.parent.toList, path.Plain → site.Within path

instance (site : Site) (place : List Name) : Decidable (site.Inside place) :=
  inferInstanceAs (Decidable (_ <+: _))

instance (site : Site) (path : PathBuf) : Decidable (site.Within path) :=
  inferInstanceAs (Decidable (∀ cs ∈ path.components.inits, _ ∨ _))

instance (site : Site) (entry : ZipEntry) : Decidable (site.Safe entry) :=
  inferInstanceAs (Decidable (if entry.isDir then _ → _ else _ ∨ _ ∨ _))

end Site

variable {host : Host} {run : Run} {site : Site} {path name : PathBuf} {entry : ZipEntry}

def calm : Host := ⟨fun _ _ => none, fun _ => ""⟩

def requests (host : Host) (dest : List Char) (entry : ZipEntry) : List Request :=
  let out := join dest entry.name
  ⟨.byIndex entry, fun e => s!"zip entry: {e}"⟩ ::
    if entry.isDir then [mkdir (.parse out)]
    else if ['.', '.'] <:+: entry.name then []
    else (PathBuf.parse out).parent.toList.map mkdir ++
      [⟨.createFile (.parse out), fun e => s!"create {host.debug out}: {e}"⟩,
        ⟨.copy (.parse out), fun e => s!"extract write: {e}"⟩]

theorem extractEntry_eq (host : Host) (dest : List Char) (run : Run) (entry : ZipEntry) :
    extractEntry host dest run entry = (requests host dest entry).foldl (Run.request host) run := by
  unfold extractEntry requests
  by_cases hdir : entry.isDir
  · simp [hdir]
  by_cases hdots : ['.', '.'] <:+: entry.name
  · simp [hdir, hdots]
  cases hparent : (PathBuf.parse (join dest entry.name)).parent with
  | none => simp [hdir, hdots, hparent]
  | some parent => simp [hdir, hdots, hparent]

theorem extractZip_eq (host : Host) (zip dest : List Char) (entries : List ZipEntry) :
    extractZip host zip dest entries =
      (⟨.openZip, fun e => s!"cannot open {host.debug zip}: {e}"⟩ ::
        ⟨.readArchive, fun e => s!"invalid zip: {e}"⟩ ::
        entries.flatMap (requests host dest)).foldl (Run.request host) ⟨[], none⟩ := by
  have hentry : extractEntry host dest = fun run entry =>
      (requests host dest entry).foldl (Run.request host) run :=
    funext₂ fun run entry => extractEntry_eq host dest run entry
  simp only [extractZip, hentry, List.foldl_cons, List.foldl_flatMap]

theorem mem_request {call : Call} {req : Request} (h : call ∈ (run.request host req).calls) :
    call ∈ run.calls ∨ call = req.call := by
  unfold Run.request at h
  split at h
  · exact .inl h
  · simpa using h

theorem mem_foldl_request {call : Call} {reqs : List Request}
    (h : call ∈ (reqs.foldl (Run.request host) run).calls) :
    call ∈ run.calls ∨ call ∈ reqs.map Request.call := by
  induction reqs generalizing run with
  | nil => exact .inl h
  | cons req reqs ih =>
    rw [List.map_cons, List.mem_cons]
    rcases ih h with hcalls | hreqs
    · rcases mem_request hcalls with hrun | hreq
      · exact .inl hrun
      · exact .inr (.inl hreq)
    · exact .inr (.inr hreqs)

theorem foldl_request_calls (hcalm : ∀ log call, host.answer log call = none)
    (reqs : List Request) (hrun : run.error = none) :
    (reqs.foldl (Run.request host) run).calls = run.calls ++ reqs.map Request.call := by
  induction reqs generalizing run with
  | nil => simp
  | cons req reqs ih =>
    have hreq : run.request host req = ⟨run.calls ++ [req.call], none⟩ := by
      simp only [Run.request, hrun, hcalm, Option.map_none]
    rw [List.foldl_cons, hreq, ih rfl]
    simp

namespace Site

theorem clear_createDirAll_iff :
    site.Clear (.createDirAll path) ↔ (path.Plain → site.Within path) := by
  constructor
  · intro h hplain cs hcs
    by_cases hdirs : walk (path.start site.cwd) cs ∈ site.dirs
    · exact .inl hdirs
    · exact .inr (h _ (.dir hplain (List.mem_inits cs _ |>.mp hcs) hdirs))
  · rintro h _ (⟨hplain, hway, hnew⟩ | _)
    exact (h hplain _ (List.mem_inits _ _ |>.mpr hway)).resolve_left hnew

theorem Within.parent {q : PathBuf} (h : site.Within path) (hq : q ∈ path.parent) :
    site.Within q := by
  obtain ⟨-, rfl⟩ := mem_parent hq
  intro cs hcs
  have hfront : cs <+: path.components.dropLast := List.mem_inits cs _ |>.mp hcs
  exact h cs (List.mem_inits cs _ |>.mpr (hfront.trans (List.dropLast_prefix _)))

theorem clear_file_iff :
    (site.Clear (.createFile path) ∧ ∀ q ∈ path.parent, site.Clear (.createDirAll q)) ↔
      ∀ q ∈ path :: path.parent.toList, q.Plain → site.Within q := by
  constructor
  · rintro ⟨hfile, hparent⟩ q hq hplain
    rcases List.mem_cons.mp hq with rfl | hq
    · have hwhole : q.resolve site.cwd ∈ site.dirs ∨ site.Inside (q.resolve site.cwd) := by
        by_cases hdirs : q.resolve site.cwd ∈ site.dirs
        · exact .inl hdirs
        · exact .inr (hfile _ (.file hplain hdirs))
      intro cs hcs
      by_cases hcomponents : cs = q.components
      · subst hcomponents
        exact hwhole
      · have hprefix : cs <+: q.components := List.mem_inits cs _ |>.mp hcs
        obtain ⟨parent, hq, habsolute, hfront⟩ := exists_parent_of_prefix hprefix hcomponents
        have hstart : parent.start site.cwd = q.start site.cwd := by
          simp only [PathBuf.start, habsolute]
        have hway := clear_createDirAll_iff.mp (hparent parent hq) (hplain.parent hq)
        rw [← hstart]
        exact hway cs (List.mem_inits cs _ |>.mpr hfront)
    · exact clear_createDirAll_iff.mp (hparent q (Option.mem_toList.mp hq)) hplain
  · intro h
    refine ⟨?_, fun q hq =>
      clear_createDirAll_iff.mpr (h q (List.mem_cons_of_mem _ (Option.mem_toList.mpr hq)))⟩
    rintro _ (_ | ⟨hplain, hnew⟩)
    have hself : path.components ∈ path.components.inits :=
      List.mem_inits _ _ |>.mpr List.prefix_rfl
    exact (h path (by simp) hplain _ hself).resolve_left hnew

theorem within_join (site : Site) (hrelative : name.absolute = false)
    (hdown : .parentDir ∉ name.components) :
    site.Within ((PathBuf.parse site.dest).join name) := by
  intro cs hcs
  rw [join_of_relative hrelative, List.mem_inits] at hcs
  rw [join_of_relative hrelative]
  rcases List.prefix_or_prefix_of_prefix hcs (List.prefix_append _ _) with habove | hbelow
  · by_cases hdest : cs = (PathBuf.parse site.dest).components
    · subst hdest
      exact .inr List.prefix_rfl
    · exact .inl (site.above cs (List.mem_inits cs _ |>.mpr habove) hdest)
  · obtain ⟨rest, rfl⟩ := hbelow
    have hrest : rest <+: name.components := (List.prefix_append_right_inj _).mp hcs
    refine .inr ?_
    rw [walk_append]
    exact prefix_walk fun hc => hdown (hrest.subset hc)

theorem within_file_iff (hdown : .parentDir ∉ name.components) :
    (∀ path ∈ (PathBuf.parse site.dest).join name ::
        ((PathBuf.parse site.dest).join name).parent.toList, path.Plain → site.Within path) ↔
      (name.absolute = false ∨
        ∀ path ∈ name :: name.parent.toList, path.Plain → site.Within path) := by
  cases hname : name.absolute with
  | true => simp [join_of_absolute hname]
  | false =>
    have hout := within_join site hname hdown
    refine ⟨fun _ => .inl rfl, fun _ path hpath _ => ?_⟩
    rcases List.mem_cons.mp hpath with rfl | hparent
    · exact hout
    · exact hout.parent (Option.mem_toList.mp hparent)

theorem safe_of_relative (hrelative : (PathBuf.parse entry.name).absolute = false)
    (hdots : ¬ ['.', '.'] <:+: entry.name) : site.Safe entry := by
  unfold Safe
  split
  · exact fun _ => within_join site hrelative (parentDir_notMem_parse hdots)
  · exact .inr (.inl hrelative)

example : ∀ entry ∈ [⟨['b', '/'], true⟩, ⟨['b', '/', 'f'], false⟩, ⟨['/', 't', '/'], true⟩],
    Safe ⟨[[], [['t']]], [], ['/', 't', '/', 'd'], by decide⟩ entry := by
  decide

theorem clear_of_idle {call : Call} (h : ∀ place, ¬ site.Makes call place) : site.Clear call :=
  fun place hmakes => absurd hmakes (h place)

/-- What is asked for an entry stays in `dest` just where its name is safe. -/
theorem clear_requests_iff (host : Host) :
    (∀ req ∈ requests host site.dest entry, site.Clear req.call) ↔ site.Safe entry := by
  have hentry : site.Clear (.byIndex entry) := clear_of_idle (by rintro _ ⟨⟩)
  have hcopy : site.Clear (.copy (.parse (join site.dest entry.name))) :=
    clear_of_idle (by rintro _ ⟨⟩)
  unfold Safe
  by_cases hdir : entry.isDir
  · simp [requests, hdir, hentry, mkdir, clear_createDirAll_iff, parse_join]
  by_cases hdots : ['.', '.'] <:+: entry.name
  · simp [requests, hdir, hdots, hentry]
  have hasked : (∀ req ∈ requests host site.dest entry, site.Clear req.call) ↔
      site.Clear (.createFile (.parse (join site.dest entry.name))) ∧
        ∀ q ∈ (PathBuf.parse (join site.dest entry.name)).parent,
          site.Clear (.createDirAll q) := by
    simp only [requests, hdir, hdots, Bool.false_eq_true, if_false, List.forall_mem_cons,
      List.forall_mem_append, List.forall_mem_map, List.not_mem_nil, false_implies, implies_true,
      Option.mem_toList, hentry, hcopy, mkdir, true_and, and_true]
    exact and_comm
  rw [hasked, clear_file_iff, parse_join, within_file_iff (parentDir_notMem_parse hdots)]
  simp [hdir, hdots]

end Site

/-- An archive is unpacked into `dest`, whatever the calls answer, just where each of its names
is safe. -/
theorem extractZip_contained_iff (site : Site) (zip : List Char) (entries : List ZipEntry) :
    (∀ host, site.Contained (extractZip host zip site.dest entries).calls) ↔
      ∀ entry ∈ entries, site.Safe entry := by
  constructor
  · intro hcontained entry hentry
    refine (Site.clear_requests_iff calm).mp fun req hreq => hcontained calm req.call ?_
    rw [extractZip_eq, foldl_request_calls (fun _ _ => rfl) _ rfl]
    exact List.mem_map_of_mem (.tail _ (.tail _ (List.mem_flatMap_of_mem hentry hreq)))
  · intro hsafe host call hcall
    rw [extractZip_eq] at hcall
    have hasked := (mem_foldl_request hcall).resolve_left List.not_mem_nil
    simp only [List.map_cons, List.mem_cons] at hasked
    rcases hasked with rfl | rfl | hentries
    · exact Site.clear_of_idle (by rintro _ ⟨⟩)
    · exact Site.clear_of_idle (by rintro _ ⟨⟩)
    · obtain ⟨req, hreq, rfl⟩ := List.mem_map.mp hentries
      obtain ⟨entry, hentry, hreq⟩ := List.mem_flatMap.mp hreq
      exact (Site.clear_requests_iff host).mpr (hsafe entry hentry) req hreq

def Site.sample : Site where
  dirs := [[], [['t']]]
  cwd := []
  dest := ['/', 't', '/', 'd']
  above := by decide

/-- A directory's name climbs out of `dest`, a file's starts at the root. -/
theorem extractZip_escapes :
    ¬ Site.sample.Contained
      (extractZip calm ['z'] Site.sample.dest [⟨['.', '.', '/', 'x', '/'], true⟩]).calls ∧
    ¬ Site.sample.Contained
      (extractZip calm ['z'] Site.sample.dest [⟨['/', 'x'], false⟩]).calls := by
  have hmem : ∀ {calls : List Call} {call : Call} (n : Nat), calls[n]? = some call → call ∈ calls :=
    fun _ h => List.mem_of_getElem? h
  constructor
  · intro h
    have hmakes : Site.sample.Makes (.createDirAll ⟨true, [.normal ['t'], .normal ['d'], .parentDir,
        .normal ['x']]⟩) [['t'], ['x']] := .dir (by decide) List.prefix_rfl (by decide)
    have hinside := h _ (hmem 3 rfl) _ hmakes
    revert hinside
    decide
  · intro h
    have hmakes : Site.sample.Makes (.createFile ⟨true, [.normal ['x']]⟩) [['x']] :=
      .file (by decide) (by decide)
    have hinside := h _ (hmem 4 rfl) _ hmakes
    revert hinside
    decide

end FerricK.Extract
