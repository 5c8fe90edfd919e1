/-
Files that include files.

Reading is taken apart into single steps with a stack of the open files (`ReadingMoment`): a step reads one
line, enters a file or leaves one. No file is ever on the chain twice, so with finitely many paths reading
comes to an end (`steps_readFile`).
-/
import Mathlib.Data.List.Perm.Subperm
import Mathlib.Logic.Function.Iterate
import SpectrumAsm.Proofs.Reading

namespace SpectrumAsm

open List SourceTree FileReader

variable {full text : String} {included : List String} {line : SourceLine} {rest : List SourceLine}
  {top : OpenFile} {outer : List OpenFile} {m : ReadingMoment}

/-! ## Lines that include a file -/

namespace SourceTree

variable {setup : SourceSetup} {dir : Option String} {chain : List String} {path : String}

theorem findInclude_ok {included' : List String}
    (h : findInclude setup dir chain included path = (included', .ok (full, text))) :
    setup.canonical? (includePath dir path) = some full ∧ full ∉ chain := by
  unfold findInclude at h
  split at h
  · cases h
  · rename_i found hfound
    split at h
    · cases h
    · rename_i hchain
      split at h
      · cases h
      · simp only [Prod.mk.injEq] at h
        obtain ⟨-, h⟩ := h
        split at h
        · cases h
          exact ⟨hfound, by simpa using hchain⟩
        · cases h

theorem findInclude_of_mem (h : setup.canonical? (includePath dir path) = some full) (hchain : full ∈ chain) :
    findInclude setup dir chain included path = (included, .error (.includeCircular path)) := by
  simp [findInclude, h, hchain]

end SourceTree

namespace FileReader

variable {r : FileReader} {x : ReadState} {p : FileProgress}

/-- The file that a line includes: the files included so far with this one, its path and its text. It is
`none` for other lines, and if the file cannot be had. -/
def entering? (r : FileReader) (p : FileProgress) (line : SourceLine) : Option (List String × String × String) :=
  match line.stmt with
  | some (.directive (.includeFile path)) =>
    if Conditional.isActive p.sections then
      match findInclude r.setup r.dir r.chain p.included path with
      | (included, .ok (full, text)) => some (included, full, text)
      | (_, .error _) => none
    else none
  | _ => none

theorem entering?_cases (h : r.entering? p line = some (included, full, text)) :
    ∃ path, line.stmt = some (.directive (.includeFile path)) ∧ Conditional.isActive p.sections = true ∧
      findInclude r.setup r.dir r.chain p.included path = (included, .ok (full, text)) := by
  unfold entering? at h
  split at h
  case h_2 => cases h
  case h_1 path hstmt =>
    split at h
    case isFalse => cases h
    case isTrue hactive =>
      split at h
      case h_2 => cases h
      case h_1 hfind =>
        cases h
        exact ⟨path, hstmt, hactive, hfind⟩

theorem line_of_entering (h : r.entering? x.1 line = some (included, full, text)) : r.line x line =
      let read := r.readFile (full :: r.chain) full text x.2
      ({ x.1 with last := line.pos.line, included, kept := read.1.reverse ++ x.1.kept }, read.2) := by
  obtain ⟨path, hstmt, hactive, hfind⟩ := entering?_cases h
  simp [FileReader.line, SourceTree.readLine, SourceTree.obey, hstmt, hactive, hfind]

theorem line_of_not_entering (h : r.entering? x.1 line = none) (readFile : ReadFile) :
    r.line x line = ({ r with readFile } : FileReader).line x line := by
  unfold entering? at h
  unfold FileReader.line SourceTree.readLine
  rcases hs : line.stmt with _ | s
  · rfl
  cases s with
  | directive d =>
    cases d with
    | includeFile path =>
      simp only [obey]
      cases hactive : Conditional.isActive x.1.sections with
      | false => rfl
      | true =>
        rcases hfind : findInclude r.setup r.dir r.chain x.1.included path with ⟨_, _ | _⟩
        · rfl
        · simp only [hs, hactive, if_true, hfind] at h
          cases h
    | _ => rfl
  | _ => rfl

end FileReader

/-! ## One step of reading -/

/-- A file that is being read: its canonical path, if it has to be kept from being included, its
number and directory, the lines to come, and the progress made. -/
structure OpenFile where
  path : Option String
  file : Nat
  dir : Option String
  rest : List SourceLine
  progress : FileProgress := {}

def OpenFile.ofText (path : Option String) (dir : Option String) (text : String) (t : SourceTree) : OpenFile where
  path := path
  file := t.names.size
  dir := dir
  rest := (SourceLine.ofSource t.names.size text).1

/-- A moment at which a program is read: the innermost of the open files, those that led to it, and the
program so far. -/
inductive ReadingMoment where
  | reading (top : OpenFile) (outer : List OpenFile) (t : SourceTree)
  | finished (lines : List SourceLine) (t : SourceTree)

namespace ReadingMoment

def chainOf (files : List OpenFile) : List String := files.filterMap OpenFile.path

/-- What reads a line of the innermost file, as far as no other file is entered. -/
def lineReader (setup : SourceSetup) (top : OpenFile) (outer : List OpenFile) : FileReader :=
  .nested setup 0 top.dir (chainOf (top :: outer))

/-- One step: a line is read, a file is entered or a file is left. -/
def step (setup : SourceSetup) : ReadingMoment → ReadingMoment
  | finished lines t => finished lines t
  | reading top outer t =>
    match top.rest, outer with
    | [], [] => finished top.progress.kept.reverse (top.progress.finish top.file t)
    | [], below :: outer =>
      let progress := { below.progress with kept := top.progress.kept ++ below.progress.kept }
      reading { below with progress } outer (top.progress.finish top.file t)
    | line :: rest, outer =>
      let r := lineReader setup top outer
      match r.entering? top.progress line with
      | some (included, full, text) =>
        let dir := some (Path.parent full)
        let progress := { top.progress with last := line.pos.line, included }
        reading (.ofText full dir text t) ({ top with rest, progress } :: outer) (t.enterFile full dir text)
      | none =>
        let (progress, t) := r.line (top.progress, t) line
        reading { top with rest, progress } outer t

def start (path : Option String) (name : String) (dir : Option String) (text : String) (t : SourceTree) :
    ReadingMoment :=
  reading (.ofText path dir text t) [] (t.enterFile name dir text)

section
variable {setup : SourceSetup} {t : SourceTree}

theorem step_finish (h : top.rest = []) : step setup (reading top [] t) =
    finished top.progress.kept.reverse (top.progress.finish top.file t) := by
  simp [step, h]

theorem step_leave (h : top.rest = []) (below : OpenFile) : step setup (reading top (below :: outer) t) =
    let progress := { below.progress with kept := top.progress.kept ++ below.progress.kept }
    reading { below with progress } outer (top.progress.finish top.file t) := by
  simp [step, h]

theorem step_enter (h : top.rest = line :: rest)
    (henter : (lineReader setup top outer).entering? top.progress line = some (included, full, text)) :
    step setup (reading top outer t) =
      let dir := some (Path.parent full)
      let progress := { top.progress with last := line.pos.line, included }
      reading (.ofText full dir text t) ({ top with rest, progress } :: outer) (t.enterFile full dir text) := by
  simp [step, h, henter]

theorem step_line (h : top.rest = line :: rest)
    (henter : (lineReader setup top outer).entering? top.progress line = none) :
    step setup (reading top outer t) =
      let read := (lineReader setup top outer).line (top.progress, t) line
      reading { top with rest, progress := read.1 } outer read.2 := by
  simp [step, h, henter]

end

/-! ## Chains -/

section
variable {file file' : OpenFile} {files : List OpenFile}

theorem chainOf_cons_some (h : file.path = some full) : chainOf (file :: files) = full :: chainOf files := by
  simp [chainOf, h]

theorem chainOf_cons_none (h : file.path = none) : chainOf (file :: files) = chainOf files := by
  simp [chainOf, h]

theorem chainOf_cons_congr (h : file'.path = file.path) : chainOf (file' :: files) = chainOf (file :: files) := by
  cases hpath : file.path with
  | none => rw [chainOf_cons_none hpath, chainOf_cons_none (h.trans hpath)]
  | some full => rw [chainOf_cons_some hpath, chainOf_cons_some (h.trans hpath)]

end

/-- Open files that are kept from being included again, all but perhaps the outermost: their paths are
distinct and among those there are. -/
structure Guarded (paths : List String) (files : List OpenFile) : Prop where
  nodup : (chainOf files).Nodup
  subset : chainOf files ⊆ paths
  length : files.length ≤ (chainOf files).length + 1

namespace Guarded

variable {paths : List String} {file file' : OpenFile} {files : List OpenFile}

theorem push (h : Guarded paths files) (hpath : file.path = some full) (hnew : full ∉ chainOf files)
    (hmem : full ∈ paths) : Guarded paths (file :: files) := by
  have hlength := h.length
  constructor <;> rw [chainOf_cons_some hpath]
  · exact nodup_cons.2 ⟨hnew, h.nodup⟩
  · exact cons_subset.2 ⟨hmem, h.subset⟩
  · simpa using hlength

theorem pop (h : Guarded paths (file :: files)) : Guarded paths files := by
  obtain ⟨hnodup, hsubset, hlength⟩ := h
  cases hpath : file.path with
  | none =>
    rw [chainOf_cons_none hpath] at hnodup hsubset hlength
    exact ⟨hnodup, hsubset, by simp at hlength; omega⟩
  | some full =>
    rw [chainOf_cons_some hpath] at hnodup hsubset hlength
    exact ⟨(nodup_cons.1 hnodup).2, (cons_subset.1 hsubset).2, by simpa using hlength⟩

theorem replace (h : Guarded paths (file :: files)) (hpath : file'.path = file.path) :
    Guarded paths (file' :: files) := by
  obtain ⟨hnodup, hsubset, hlength⟩ := h
  constructor <;> rwa [chainOf_cons_congr hpath]

theorem length_chainOf_le (h : Guarded paths files) : (chainOf files).length ≤ paths.length :=
  (subperm_of_subset h.nodup h.subset).length_le

end Guarded

def AllGuarded (paths : List String) : ReadingMoment → Prop
  | reading top outer _ => Guarded paths (top :: outer)
  | finished _ _ => True

section
variable {setup : SourceSetup} {paths : List String}
  (hpaths : ∀ path full, setup.canonical? path = some full → full ∈ paths)
include hpaths

theorem Guarded.enter {below file : OpenFile} (h : Guarded paths (top :: outer))
    (henter : (lineReader setup top outer).entering? top.progress line = some (included, full, text))
    (hbelow : below.path = top.path) (hfile : file.path = some full) : Guarded paths (file :: below :: outer) := by
  obtain ⟨path, -, -, hfind⟩ := entering?_cases henter
  obtain ⟨hcanonical, hnew⟩ := findInclude_ok hfind
  refine (h.replace hbelow).push hfile ?_ (hpaths _ _ hcanonical)
  rw [chainOf_cons_congr hbelow]
  exact hnew

theorem allGuarded_step (h : m.AllGuarded paths) : (m.step setup).AllGuarded paths := by
  cases m with
  | finished lines t => trivial
  | reading top outer t =>
    cases hrest : top.rest with
    | nil =>
      cases outer with
      | nil =>
        rw [step_finish hrest]
        trivial
      | cons below outer =>
        rw [step_leave hrest]
        exact h.pop.replace rfl
    | cons line rest =>
      rcases henter : (lineReader setup top outer).entering? top.progress line with _ | ⟨included, full, text⟩
      · rw [step_line hrest henter]
        exact h.replace rfl
      · rw [step_enter hrest henter]
        exact h.enter hpaths henter rfl rfl

theorem allGuarded_steps (h : m.AllGuarded paths) (n : Nat) : ((step setup)^[n] m).AllGuarded paths := by
  induction n with
  | zero => exact h
  | succ n ih =>
    rw [Function.iterate_succ_apply']
    exact allGuarded_step hpaths ih

omit hpaths in
/-- The moment at which the lines of the innermost file have been read with a depth. -/
def linesRead (setup : SourceSetup) (depth : Nat) (top : OpenFile) (outer : List OpenFile) (t : SourceTree) :
    ReadingMoment :=
  let x := (nested setup depth top.dir (chainOf (top :: outer))).lines top.rest (top.progress, t)
  reading { top with rest := [], progress := x.1 } outer x.2

/-- After some steps the lines of the innermost file have been read, as with any depth that the paths not yet
on the chain do not exceed. -/
theorem steps_linesRead (depth : Nat) (t : SourceTree) (h : Guarded paths (top :: outer))
    (hdepth : paths.length ≤ depth + (chainOf (top :: outer)).length) :
    ∃ n, (step setup)^[n] (reading top outer t) = linesRead setup depth top outer t := by
  -- Files inside this one are read with a smaller depth, the lines of this one by recursion on them.
  induction depth using Nat.strongRecOn generalizing top outer t with
  | _ depth ihdepth =>
  induction hrest : top.rest generalizing top t with
  | nil =>
    refine ⟨0, ?_⟩
    obtain ⟨path, file, dir, rest, progress⟩ := top
    cases hrest
    rfl
  | cons line rest ih =>
    let read := (nested setup depth top.dir (chainOf (top :: outer))).line (top.progress, t) line
    let next := { top with rest, progress := read.1 }
    have hnext : Guarded paths (next :: outer) := h.replace rfl
    obtain ⟨m, hm⟩ := ih read.2 hnext hdepth rfl
    have hcons : linesRead setup depth top outer t = linesRead setup depth next outer read.2 := by
      unfold linesRead
      rw [hrest]
      rfl
    rw [hcons]
    rcases henter : (lineReader setup top outer).entering? top.progress line with _ | ⟨included, full, text⟩
    · have hline : (lineReader setup top outer).line (top.progress, t) line = read :=
        line_of_not_entering henter _
      refine ⟨m + 1, ?_⟩
      rw [Function.iterate_succ_apply, step_line hrest henter, hline]
      exact hm
    · -- The file is not on the chain, so there is room for one more.
      let below := { top with rest, progress := { top.progress with last := line.pos.line, included } }
      let file := OpenFile.ofText full (some (Path.parent full)) text t
      have hfile : Guarded paths (file :: below :: outer) := h.enter hpaths henter rfl rfl
      have hchain : chainOf (file :: below :: outer) = full :: chainOf (top :: outer) := rfl
      have hroom := hfile.length_chainOf_le
      rw [hchain, length_cons] at hroom
      obtain ⟨depth, rfl⟩ : ∃ d, depth = d + 1 := ⟨depth - 1, by omega⟩
      obtain ⟨n, hn⟩ := ihdepth depth (by omega) (t.enterFile full (some (Path.parent full)) text) hfile
        (by rw [hchain, length_cons]; omega)
      have hentered : (step setup)^[n + 1] (reading top outer t) =
          linesRead setup depth file (below :: outer) (t.enterFile full (some (Path.parent full)) text) := by
        rw [Function.iterate_succ_apply, step_enter hrest henter]
        exact hn
      have hleft : (step setup)^[n + 2] (reading top outer t) = reading next outer read.2 := by
        have hline : read = _ := line_of_entering henter
        show _ = reading { top with rest, progress := read.1 } outer read.2
        rw [Function.iterate_succ_apply', hentered, hline]
        simp only [nested, readFile_succ, linesRead, step_leave, reverse_reverse]
        rfl
      refine ⟨m + (n + 2), ?_⟩
      rw [Function.iterate_add_apply, hleft]
      exact hm

end

end ReadingMoment

/-! ## The files of a tree -/

namespace FileTree

variable {t : FileTree} {place : List String}

theorem mem_places_iff : place ∈ t.places ↔ ∃ whole ∈ t.workingDir :: t.dirs ++ t.files.map (·.1), place <+: whole := by
  simp only [places, mem_flatMap, mem_map, mem_range]
  constructor
  · rintro ⟨whole, hwhole, n, -, rfl⟩
    exact ⟨whole, hwhole, take_prefix n whole⟩
  · rintro ⟨whole, hwhole, hbegins⟩
    exact ⟨whole, hwhole, place.length, by have := hbegins.length_le; omega, (prefix_iff_eq_take.1 hbegins).symm⟩

theorem mem_places_of_prefix {shorter : List String} (h : place ∈ t.places) (hbegins : shorter <+: place) :
    shorter ∈ t.places := by
  obtain ⟨whole, hwhole, hplace⟩ := mem_places_iff.1 h
  exact mem_places_iff.2 ⟨whole, hwhole, hbegins.trans hplace⟩

theorem mem_places_of_file? (h : (t.file? place).isSome = true) : place ∈ t.places := by
  obtain ⟨file, hfile, hplace⟩ := lookup_isSome_iff.1 h
  rw [eq_of_beq hplace]
  exact mem_places_iff.2 ⟨file.1, mem_append_right _ (mem_map_of_mem hfile), prefix_refl _⟩

theorem mem_places_of_isDir (h : t.isDir place = true) : place ∈ t.places := by
  simp only [isDir, Bool.or_eq_true, Bool.and_eq_true, any_eq_true, isPrefixOf_iff_prefix] at h
  rcases h with (hworking | ⟨dir, hdir, hbegins⟩) | ⟨file, hfile, hbegins, -⟩
  · exact mem_places_iff.2 ⟨t.workingDir, by simp, hworking⟩
  · exact mem_places_iff.2 ⟨dir, by simp [hdir], hbegins⟩
  · exact mem_places_iff.2 ⟨file.1, mem_append_right _ (mem_map_of_mem hfile), hbegins⟩

theorem mem_places_of_enter {part : String} {next : List String} (h : place ∈ t.places)
    (henter : t.enter place part = .ok next) : next ∈ t.places := by
  unfold enter at henter
  split at henter
  · cases henter
  split at henter
  · cases henter
    exact h
  split at henter
  · cases henter
    exact mem_places_of_prefix h (dropLast_eq_take ▸ take_prefix ..)
  split at henter
  · cases henter
  simp only at henter
  split at henter
  · rename_i hnext
    cases henter
    rcases Bool.or_eq_true_iff.1 hnext with hfile | hdir
    · exact mem_places_of_file? hfile
    · exact mem_places_of_isDir hdir
  · cases henter

theorem mem_places_of_follow {parts : List String} {last : List String} (h : place ∈ t.places)
    (hfollow : t.follow place parts = .ok last) : last ∈ t.places := by
  unfold follow at hfollow
  induction parts generalizing place with
  | nil =>
    cases hfollow
    exact h
  | cons part parts ih =>
    rw [foldlM_cons] at hfollow
    cases henter : t.enter place part with
    | error fault =>
      rw [henter] at hfollow
      cases hfollow
    | ok next =>
      rw [henter] at hfollow
      exact ih (mem_places_of_enter h henter) hfollow

theorem mem_places_origin (path : String) : t.origin path ∈ t.places := by
  refine mem_places_iff.2 ⟨t.workingDir, by simp, ?_⟩
  unfold origin
  split
  · exact nil_prefix
  · exact prefix_refl _

theorem mem_places_of_canonical? {path : String} (h : t.canonical? path = some full) :
    full ∈ t.places.map Path.ofParts := by
  unfold canonical? locate at h
  split at h
  · rename_i place hplace
    cases h
    cases hcheck : checkPath path with
    | error fault =>
      rw [hcheck] at hplace
      cases hplace
    | ok _ =>
      rw [hcheck] at hplace
      exact mem_map_of_mem (mem_places_of_follow (mem_places_origin path) hplace)
  · cases h

end FileTree

namespace ReadingMoment

section
variable {setup : SourceSetup}

/-- The path of the main file. It joins the chain only if the file has a directory. -/
def mainPath (setup : SourceSetup) (name : String) (dir : Option String) : Option String :=
  dir.bind fun _ => setup.canonical? name

theorem chainOf_ofText (path dir : Option String) (text : String) (t : SourceTree) :
    chainOf [.ofText path dir text t] = path.toList := by cases path <;> rfl

section
variable {paths : List String} (hpaths : ∀ path full, setup.canonical? path = some full → full ∈ paths)
  (name : String) (dir : Option String) (text : String) (t : SourceTree)
include hpaths

theorem guarded_start : Guarded paths [.ofText (mainPath setup name dir) dir text t] := by
  constructor <;> rw [chainOf_ofText]
  · cases mainPath setup name dir <;> simp
  · intro full hfull
    obtain ⟨_, -, hname⟩ := Option.bind_eq_some_iff.1 (Option.mem_toList.1 hfull)
    exact hpaths _ _ hname
  · simp

/-- Reading finishes with what `readFile` gives for a depth above the number of paths. -/
theorem steps_readFile {depth : Nat} (hdepth : paths.length ≤ depth) :
    ∃ n, (step setup)^[n] (start (mainPath setup name dir) name dir text t) =
      let read := readFile setup (depth + 1) dir (mainPath setup name dir).toList name text t
      finished read.1 read.2 := by
  obtain ⟨n, hn⟩ := steps_linesRead hpaths depth (t.enterFile name dir text)
    (guarded_start hpaths name dir text t) (by omega)
  refine ⟨n + 1, ?_⟩
  rw [Function.iterate_succ_apply', start, hn, linesRead, chainOf_ofText, readFile_succ]
  rfl

end

theorem finished_unique {k n : Nat} {ls ms : List SourceLine} {t u : SourceTree}
    (hk : (step setup)^[k] m = finished ls t) (hn : (step setup)^[n] m = finished ms u) : (ls, t) = (ms, u) := by
  have hstay (d : Nat) (ls : List SourceLine) (t : SourceTree) :
      (step setup)^[d] (finished ls t) = finished ls t := Function.iterate_fixed rfl d
  have hlater : finished ls t = finished ms u := by
    rcases Nat.le_total k n with hle | hle
    · obtain ⟨d, rfl⟩ := Nat.exists_eq_add_of_le' hle
      rwa [Function.iterate_add_apply, hk, hstay] at hn
    · obtain ⟨d, rfl⟩ := Nat.exists_eq_add_of_le' hle
      rw [Function.iterate_add_apply, hn, hstay] at hk
      exact hk.symm
  cases hlater
  rfl

end

/-- Reading a program comes to an end, if there are only finitely many canonical paths, and with what
`readFile` gives for every depth above their number. At every moment the chain of open files has no path
twice, and an `#include` of a file on the chain is reported without the file being read. -/
theorem reading_terminates (setup : SourceSetup) (paths : List String)
    (hpaths : ∀ path full, setup.canonical? path = some full → full ∈ paths) (name : String)
    (dir : Option String) (text : String) (t : SourceTree) :
    let first := start (mainPath setup name dir) name dir text t
    (∃ n lines u, (step setup)^[n] first = finished lines u ∧ (∀ depth, paths.length < depth →
        readFile setup depth dir (mainPath setup name dir).toList name text t = (lines, u)) ∧
      ∀ options tree, setup = .ofTree options tree → t = .start options →
        read options tree name dir text = (lines, u)) ∧
    ∀ n top outer u, (step setup)^[n] first = reading top outer u →
      (chainOf (top :: outer)).Nodup ∧ chainOf (top :: outer) ⊆ paths ∧ outer.length ≤ paths.length ∧
      ∀ line rest path full, top.rest = line :: rest → line.stmt = some (.directive (.includeFile path)) →
        Conditional.isActive top.progress.sections = true →
        setup.canonical? (includePath top.dir path) = some full →
        full ∈ chainOf (top :: outer) →
        (Fault.includeCircular path).code = "Z0303" ∧ (step setup)^[n + 1] first =
            reading { top with rest, progress := { top.progress with last := line.pos.line } } outer
              (u.report (.includeCircular path) line.pos) := by
  intro first
  refine ⟨?_, ?_⟩
  · obtain ⟨n, hn⟩ := steps_readFile hpaths name dir text t (Nat.le_refl _)
    refine ⟨n, _, _, hn, ?_, ?_⟩
    · intro depth hdepth
      obtain ⟨depth, rfl⟩ : ∃ d, depth = d + 1 := ⟨depth - 1, by omega⟩
      obtain ⟨k, hk⟩ := steps_readFile hpaths name dir text t (Nat.le_of_lt_succ hdepth)
      exact finished_unique hk hn
    · rintro options tree rfl rfl
      have hplaces (path full) (h : (SourceSetup.ofTree options tree).canonical? path = some full) :
          full ∈ tree.places.map Path.ofParts := FileTree.mem_places_of_canonical? h
      obtain ⟨k, hk⟩ := steps_readFile hplaces name dir text (.start options)
        (Nat.le_of_eq (length_map Path.ofParts))
      exact finished_unique hk hn
  · intro n top outer u hmoment
    have hfirst : first.AllGuarded paths := guarded_start hpaths name dir text t
    have hguarded : (reading top outer u).AllGuarded paths := hmoment ▸ allGuarded_steps hpaths hfirst n
    have hlength := hguarded.length_chainOf_le
    have hopen := hguarded.length
    rw [length_cons] at hopen
    refine ⟨hguarded.nodup, hguarded.subset, by omega, ?_⟩
    intro line rest path full hrest hstmt hactive hfull hchain
    refine ⟨rfl, ?_⟩
    have hfind (included : List String) : findInclude (lineReader setup top outer).setup
        (lineReader setup top outer).dir (lineReader setup top outer).chain included path =
          (included, .error (.includeCircular path)) := findInclude_of_mem hfull hchain
    have henter : (lineReader setup top outer).entering? top.progress line = none := by
      simp [FileReader.entering?, hstmt, hactive, hfind]
    rw [Function.iterate_succ_apply', hmoment, step_line hrest henter]
    simp [FileReader.line, readLine, obey, hstmt, hactive, hfind]

/-- Two files that include each other. -/
theorem reading_terminates_mutual :
    let text := "#include \"../b.asm\"\n nop"
    let tree : FileTree :=
      { files := [(["a", "main.asm"], text.toUTF8), (["b.asm"], "#include \"a/./main.asm\"\n halt".toUTF8)] }
    let setup := SourceSetup.ofTree {} tree
    let read := read {} tree "/a/main.asm" (some "/a") text
    (∃ n, (step setup)^[n] (start (mainPath setup "/a/main.asm" (some "/a")) "/a/main.asm" (some "/a") text
        (.start {})) = finished read.1 read.2) ∧
      read.1.map SourceLine.pos = [⟨1, 1⟩, ⟨0, 1⟩] ∧
      read.2.diagnostics.map (fun d => (d.fault, d.file, d.line)) =
        #[(.includeCircular "a/./main.asm", "/b.asm", 0)] := by
  intro text tree setup read
  obtain ⟨⟨n, lines, u, hn, -, hread⟩, -⟩ := reading_terminates setup (tree.places.map Path.ofParts)
    (fun _ _ => FileTree.mem_places_of_canonical?) "/a/main.asm" (some "/a") text (.start {})
  have hsame : read = (lines, u) := hread {} tree rfl rfl
  refine ⟨⟨n, ?_⟩, by decide +kernel⟩
  rw [hsame]
  exact hn

end ReadingMoment

end SpectrumAsm
