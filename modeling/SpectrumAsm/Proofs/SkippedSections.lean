/-
What a section that does not count has to do with the rest of a program.

Two texts are read that are the same but for some properly nested lines inside such a section. In both runs
the programs are the same but for the text of the one file and for earlier reports (`Apart`), also through the
files that are included.
-/
import SpectrumAsm.Proofs.Outlines
import SpectrumAsm.Proofs.ParallelReading

namespace SpectrumAsm

open List SourceLine SourceTree Conditional FileReader NameTable

variable {after before content : List String} {file : Nat} {text : String} {o : Outline}
  {pos : Position} {l : SourceLine} {u : SourceTree}

/-! ## Texts in parts -/

/-- The lines that lines of text make up, the first of which has the number `n`. -/
def SourceLine.ofTextLines (file n : Nat) (ls : List String) : List SourceLine × List (Nat × Fault) :=
  ofTokenLines file n (ls.map Lexer.lexLine)

namespace SourceLine

variable (file : Nat)

theorem ofSource_eq (text : String) : ofSource file text = ofTextLines file 0 (Text.lines text) := rfl

theorem ofTextLines_append (n : Nat) (ls ms : List String) : ofTextLines file n (ls ++ ms) =
    ((ofTextLines file n ls).1 ++ (ofTextLines file (n + ls.length) ms).1,
      (ofTextLines file n ls).2 ++ (ofTextLines file (n + ls.length) ms).2) := by
  unfold ofTextLines
  induction ls generalizing n with
  | nil => rfl
  | cons l ls ih =>
    have hnumber : n + 1 + ls.length = n + (ls.length + 1) := by omega
    simp only [cons_append, map_cons, ofTokenLines, ih, length_cons, hnumber]
    rcases ofTokens ⟨file, n⟩ (Lexer.lexLine l) with fault | _ | line <;> rfl

end SourceLine

/-! ## Programs that differ in one text -/

/-- Two programs that are the same but for the text of one file, and but for what had been reported when
a number of diagnostics ago they went apart. -/
structure SourceTree.Apart (file : Nat) (name : String) (old old' : List Diagnostic) (t u : SourceTree) : Prop where
  file : t.names[file]? = some name
  defines : u.defines = t.defines
  names : u.names = t.names
  dirs : u.dirs = t.dirs
  texts (other : String) (h : other ≠ name) : u.texts.get? other = t.texts.get? other
  diagnostics : ∃ added, t.diagnostics.toList = old ++ added ∧ u.diagnostics.toList = old' ++ added

namespace SourceTree.Apart

variable {name : String} {old old' : List Diagnostic} {t : SourceTree}

theorem fileName_eq (h : Apart file name old old' t u) : fileName t.names file = name := by
  simp [fileName, h.file]

/-- Two runs in programs that are apart, with the same lines. -/
def pairing (file : Nat) (name : String) (old old' : List Diagnostic) : ReadPairing where
  faults := Eq
  texts := Eq
  lines := Eq
  trees := Apart file name old old'

theorem parallel : ParallelReading (pairing file name old old') where
  fault _ := rfl
  text _ := rfl
  lines h _ := by
    cases h
    exact forall₂_same.2 fun _ _ => rfl
  unread h _ := by
    cases h
    exact forall₂_same.2 fun _ _ => ⟨rfl, rfl⟩
  pos h := congrArg pos h.symm
  directive {l m} h := by
    cases h
    cases l.directive? with
    | none => exact .none
    | some d => exact .some (.refl d)
  defines h := h.defines
  names h := h.names
  setDefines h _ := { h with defines := rfl }
  report {t u} h {fault _} hfault pos := by
    cases hfault
    obtain ⟨added, ht, hu⟩ := h.diagnostics
    let d : Diagnostic := { fault, file := fileName t.names pos.file, line := pos.line }
    refine { h with diagnostics := ⟨added ++ [d], ?_, ?_⟩ }
    · simp [SourceTree.report, ht, d]
    · simp [SourceTree.report, hu, h.names, d]
  openFile {t u} h other dir {text _} htext := by
    cases htext
    obtain ⟨hsize, -⟩ := Array.getElem?_eq_some_iff.1 h.file
    refine { h with file := ?_, names := ?_, dirs := ?_, texts := fun key hkey => ?_ }
    · simp [openFile, Array.getElem?_push, h.file, Nat.ne_of_lt hsize]
    · exact congrArg (·.push other) h.names
    · exact congrArg (·.push dir) h.dirs
    · simp only [openFile]
      by_cases hother : key = other
      · rw [hother, get?_insert_self, get?_insert_self]
      · rw [get?_insert_other _ _ hother, get?_insert_other _ _ hother, h.texts key hkey]

theorem progress_eq {x y : ReadState} (h : (pairing file name old old').Alike x y) : y.1 = x.1 := by
  have hkept := h.kept
  simp only [pairing, forall₂_eq_eq_eq] at hkept
  obtain ⟨⟨kept, sections, included, last⟩, t⟩ := x
  obtain ⟨⟨kept', sections', included', last'⟩, u⟩ := y
  obtain ⟨-, rfl, rfl, rfl, -⟩ := h
  cases hkept
  rfl

end SourceTree.Apart

/-! ## Reading around lines that do not count -/

namespace SourceTree

/-- The fault that a conditional asks for a model that does not exist. -/
def unknownModel (name : String) (pos : Position) : Diagnostic :=
  { fault := .ifModValue, file := name, line := pos.line }

theorem passOver_eq (t : SourceTree) (ls : List SourceLine) : t.passOver ls = { t with
      diagnostics := t.diagnostics ++
        ((unknownModels ls).map fun pos => unknownModel (fileName t.names pos.file) pos).toArray } := by
  unfold passOver
  induction unknownModels ls generalizing t with
  | nil => simp
  | cons pos ps ih =>
    rw [foldl_cons, ih]
    simp [report, unknownModel]

end SourceTree

namespace FileReader

variable (r : FileReader)

theorem last_obey (pos : Position) (d : Directive) (p : FileProgress) (t : SourceTree) :
    (obey r.setup r.readFile r.dir r.chain pos d p t).1.last = p.last := by
  unfold obey
  cases d with
  | define | undef | ifDef | ifNotDef => rfl
  | ifTrue | ifModel | ifNotModel | otherwise | endIf =>
    dsimp only
    split <;> rfl
  | includeFile =>
    dsimp only
    split
    · split <;> rfl
    · rfl

theorem last_line (x : ReadState) (l : SourceLine) : (r.line x l).1.last = l.pos.line := by
  have hkept (p : FileProgress) : (if isActive p.sections then { p with kept := l :: p.kept } else p).last =
      p.last := by split <;> rfl
  unfold line readLine
  rcases l.stmt with _ | s
  · exact hkept _
  · cases s with
    | directive d => exact r.last_obey l.pos d _ x.2
    | _ => exact hkept _

theorem last_lines (ls : List SourceLine) (x : ReadState) : (r.lines ls x).1.last = lastLine x.1.last ls := by
  induction ls generalizing x with
  | nil => rfl
  | cons l ls ih => rw [lines_cons, ih, last_line, lastLine_cons]

theorem lines_after (ls : List SourceLine) (p : FileProgress) (t : SourceTree) (n : Nat) :
    r.lines ls ({ p with last := n }, t) =
      ({ (r.lines ls (p, t)).1 with last := lastLine n ls }, (r.lines ls (p, t)).2) := by
  cases ls with
  | nil => rfl
  | cons l ls =>
    have hline : r.line ({ p with last := n }, t) l = r.line (p, t) l := rfl
    have hlast := r.last_lines ls (r.line (p, t) l)
    rw [last_line] at hlast
    rw [lines_cons, lines_cons, hline, lastLine_cons, ← hlast]

theorem lines_passOver (o : Outline) (x : ReadState) (h : isActive x.1.sections = false) :
    r.lines o.lines x = ({ x.1 with last := lastLine x.1.last o.lines }, x.2.passOver o.lines) := by
  have hidle := r.lines_idle o { kept := x.1.kept.reverse, included := x.1.included, tree := x.2 } x.1.last h
  simpa [Excerpt.state, Excerpt.passOver] using hidle

end FileReader

/-! ## The rest of a file -/

/-- A text of lines that can all be read, some of which are properly nested. -/
structure Contains (file : Nat) (text : String) (before content after : List String) (o : Outline) : Prop where
  parts : Text.lines text = before ++ content ++ after
  reads : (ofSource file text).2 = []
  nested : (ofTextLines file before.length content).1 = o.lines

theorem Contains.lines (h : Contains file text before content after o) : (ofSource file text).1 =
      (ofTextLines file 0 before).1 ++ o.lines ++
        (ofTextLines file (before.length + content.length) after).1 := by
  rw [ofSource_eq, h.parts, ofTextLines_append, ofTextLines_append, ← h.nested]
  simp

namespace SourceTree

variable (setup : SourceSetup) (depth : Nat) (dir : Option String) (chain : List String) (name : String)
  (t : SourceTree)

/-- How far a file has been read after its first lines. -/
def readBefore (text : String) (before : List String) : ReadState :=
  (nested setup depth dir chain).lines (ofTextLines t.names.size 0 before).1
    ({}, t.enterFile name dir text)

theorem readFile_around (h : Contains t.names.size text before content after o)
    (hidle : isActive (readBefore setup depth dir chain name t text before).1.sections = false) :
    readFile setup (depth + 1) dir chain name text t =
      let x := readBefore setup depth dir chain name t text before
      let rest := (ofTextLines t.names.size (before.length + content.length) after).1
      let y := (nested setup depth dir chain).lines rest (x.1, x.2.passOver o.lines)
      (y.1.kept.reverse, { y.1 with last := lastLine 0 (ofSource t.names.size text).1 }.finish
        t.names.size y.2) := by
  have hlast := last_lines (.nested setup depth dir chain)
    (ofTextLines t.names.size 0 before).1 ({}, t.enterFile name dir text)
  rw [readFile_succ]
  simp only [h.lines, lines_append]
  rw [← readBefore, lines_passOver _ o _ hidle, lines_after]
  simp only [lastLine_append]
  rw [readBefore, hlast]

end SourceTree

theorem SourceLine.pos_of_ofTokens {ts : List Token} (h : ofTokens pos ts = .ok (some l)) : l.pos = pos := by
  unfold ofTokens at h
  split at h
  · cases h
  · cases hparse : parseLine.run' (ts.filter fun t => !t.kind.isComment) with
    | error fault =>
      rw [hparse] at h
      cases h
    | ok parsed =>
      rw [hparse] at h
      simp only [bind, Except.bind] at h
      split at h <;> cases h
      rfl

theorem SourceLine.file_ofTextLines {n : Nat} {ls : List String}
    (h : l ∈ (ofTextLines file n ls).1) : l.pos.file = file := by
  unfold ofTextLines at h
  induction ls generalizing n with
  | nil => cases h
  | cons text ls ih =>
    rw [map_cons, ofTokenLines] at h
    dsimp only at h
    split at h
    · rename_i line hline
      rcases mem_cons.1 h with rfl | hrest
      · rw [pos_of_ofTokens hline]
      · exact ih hrest
    · exact ih h
    · exact ih h

namespace Contains

variable (h : Contains file text before content after o)
include h

theorem file_of_mem_unknownModels (hpos : pos ∈ unknownModels o.lines) : pos.file = file := by
  obtain ⟨l, hl, rfl⟩ := mem_map.1 hpos
  rw [← h.nested] at hl
  exact file_ofTextLines (mem_filter.1 hl).1

theorem map_unknownModel {name : String} {names : Array String} (hname : fileName names file = name) :
    (unknownModels o.lines).map (fun pos => unknownModel (fileName names pos.file) pos) =
      (unknownModels o.lines).map (unknownModel name) :=
  map_congr_left fun pos hpos => by rw [h.file_of_mem_unknownModels hpos, hname]

theorem unknownModels_eq (name : String) :
    unknownModels o.lines = ((unknownModels o.lines).map (unknownModel name)).map (⟨file, ·.line⟩) := by
  rw [map_map]
  refine (map_id _).symm.trans (map_congr_left fun pos hpos => ?_)
  simp [← h.file_of_mem_unknownModels hpos, unknownModel, id]

end Contains

namespace SourceTree

variable {setup : SourceSetup} {depth : Nat} {dir : Option String} {chain : List String}
  {name : String} {t : SourceTree} {text' : String} {content' : List String} {o' : Outline}

theorem enterFile_apart (h : (ofSource t.names.size text).2 = [])
    (h' : (ofSource t.names.size text').2 = []) :
    Apart t.names.size name t.diagnostics.toList t.diagnostics.toList (t.enterFile name dir text)
      (t.enterFile name dir text') := by
  simp only [enterFile, h, h', foldl_nil]
  refine ⟨by simp [openFile], rfl, rfl, rfl, fun other hother => ?_, [], by simp [openFile], by simp [openFile]⟩
  simp only [openFile]
  rw [get?_insert_other _ _ hother, get?_insert_other _ _ hother]

theorem Apart.passOver {old : List Diagnostic} {v : SourceTree} (h : Apart file name old old u v)
    (ho : Contains file text before content after o) (ho' : Contains file text' before content' after o') :
    Apart file name (u.diagnostics.toList ++ (unknownModels o.lines).map (unknownModel name))
      (u.diagnostics.toList ++ (unknownModels o'.lines).map (unknownModel name)) (u.passOver o.lines)
      (v.passOver o'.lines) := by
  have hname : fileName v.names file = name := h.names ▸ h.fileName_eq
  obtain ⟨added, hu, hv⟩ := h.diagnostics
  rw [passOver_eq, passOver_eq]
  refine { h with diagnostics := ⟨[], ?_, ?_⟩ }
  · simp [ho.map_unknownModel h.fileName_eq]
  · simp [ho'.map_unknownModel hname, hu, hv]

/-- Two texts that are the same but for properly nested lines inside a section that does not count: the
runs get equally far, but for the number of the last line, in programs that are otherwise the same but
for the unknown models that were found in these lines. -/
theorem readFile_apart (h : Contains t.names.size text before content after o)
    (h' : Contains t.names.size text' before content' after o') (hlength : content'.length = content.length)
    (hidle : isActive (readBefore setup depth dir chain name t text before).1.sections = false) :
    ∃ (p : FileProgress) (u v : SourceTree) (earlier : List Diagnostic),
      Apart t.names.size name (earlier ++ (unknownModels o.lines).map (unknownModel name))
          (earlier ++ (unknownModels o'.lines).map (unknownModel name)) u v ∧
        readFile setup (depth + 1) dir chain name text t = (p.kept.reverse,
          { p with last := lastLine 0 (ofSource t.names.size text).1 }.finish t.names.size u) ∧
        readFile setup (depth + 1) dir chain name text' t = (p.kept.reverse,
          { p with last := lastLine 0 (ofSource t.names.size text').1 }.finish t.names.size v) := by
  let x := readBefore setup depth dir chain name t text before
  let x' := readBefore setup depth dir chain name t text' before
  have hlines (file n : Nat) (ls : List String) : Forall₂ Eq (ofTextLines file n ls).1
      (ofTextLines file n ls).1 := forall₂_same.2 fun _ _ => rfl
  have hbefore : (Apart.pairing t.names.size name t.diagnostics.toList t.diagnostics.toList).Alike x x' :=
    Apart.parallel.fileLines (Apart.parallel.reader setup depth dir chain) (hlines _ _ _)
      ⟨.nil, rfl, rfl, rfl, enterFile_apart h.reads h'.reads⟩
  have hidle' : isActive x'.1.sections = false := hbefore.sections ▸ hidle
  let faults (o : Outline) := x.2.diagnostics.toList ++ (unknownModels o.lines).map (unknownModel name)
  have hpassed : (Apart.pairing t.names.size name (faults o) (faults o')).Alike (x.1, x.2.passOver o.lines)
      (x'.1, x'.2.passOver o'.lines) :=
    ⟨hbefore.kept, hbefore.sections, hbefore.included, hbefore.last, Apart.passOver hbefore.tree h h'⟩
  have hafter := Apart.parallel.fileLines (Apart.parallel.reader setup depth dir chain)
    (hlines t.names.size (before.length + content.length) after) hpassed
  refine ⟨_, _, _, _, hafter.tree, readFile_around setup depth dir chain name t h hidle, ?_⟩
  rw [← Apart.progress_eq hafter, readFile_around setup depth dir chain name t h' hidle', hlength]

/-- A section left open at the end of a file. -/
def missingEndif (name : String) (line : Nat) : Diagnostic := { fault := .missingEndif, file := name, line }

theorem finish_eq (p : FileProgress) (hname : fileName u.names file = name) : p.finish file u =
    { u with diagnostics := (u.diagnostics.toList ++ if p.sections.isEmpty then [] else
        [missingEndif name p.last]).toArray } := by
  unfold FileProgress.finish
  split
  · simp
  · simp [report, missingEndif, hname, ← Array.toList_inj]

theorem faults_eq_iff {earlier later found found' : List Diagnostic} {closed : Bool} {d d' : Diagnostic} :
    earlier ++ found' ++ later ++ (if closed then [] else [d']) =
        earlier ++ found ++ later ++ (if closed then [] else [d]) ↔ found' = found ∧ (closed = false → d' = d) := by
  constructor
  · intro h
    obtain ⟨hrest, hlast⟩ := append_inj' h (by cases closed <;> rfl)
    refine ⟨append_cancel_left (append_cancel_right hrest), fun hclosed => ?_⟩
    simpa [hclosed] using hlast
  · rintro ⟨rfl, hlast⟩
    cases closed with
    | true => rfl
    | false => rw [hlast rfl]

/-- Properly nested lines inside a section that does not count are replaced by as many others. The kept
lines, the defined names and the files stay the same. Of the faults, the unknown models in these lines are
others, and a section that is never closed is reported at another line if the last line of the file is
another. -/
theorem readFile_skipped (setup : SourceSetup) (depth : Nat) (dir : Option String) (chain : List String)
    (name : String) (t : SourceTree) (text text' : String) (before content content' after : List String)
    (o o' : Outline) (h : Contains t.names.size text before content after o)
    (h' : Contains t.names.size text' before content' after o') (hlength : content'.length = content.length)
    (hidle : isActive (readBefore setup depth dir chain name t text before).1.sections = false) :
    let read := readFile setup (depth + 1) dir chain name text t
    let read' := readFile setup (depth + 1) dir chain name text' t
    let last := lastLine 0 (ofSource t.names.size text).1
    let last' := lastLine 0 (ofSource t.names.size text').1
    read'.1 = read.1 ∧ read'.2.defines = read.2.defines ∧ read'.2.names = read.2.names ∧ read'.2.dirs = read.2.dirs ∧
      (∀ other ≠ name, read'.2.texts.get? other = read.2.texts.get? other) ∧
      ∃ earlier later closed,
        read.2.diagnostics.toList = earlier ++ (unknownModels o.lines).map (unknownModel name) ++ later ++
          (if closed then [] else [missingEndif name last]) ∧
        read'.2.diagnostics.toList = earlier ++ (unknownModels o'.lines).map (unknownModel name) ++ later ++
          (if closed then [] else [missingEndif name last']) ∧
        (read'.2.diagnostics = read.2.diagnostics ↔
          unknownModels o'.lines = unknownModels o.lines ∧ (closed = false → last' = last)) := by
  intro read read' last last'
  obtain ⟨p, u, v, earlier, happart, hread, hread'⟩ := readFile_apart h h' hlength hidle
  obtain ⟨later, hlater, hlater'⟩ := happart.diagnostics
  have hread : read = _ := hread
  have hread' : read' = _ := hread'
  rw [finish_eq _ happart.fileName_eq] at hread
  rw [finish_eq _ (happart.names ▸ happart.fileName_eq)] at hread'
  rw [hread, hread', hlater, hlater']
  refine ⟨rfl, happart.defines, happart.names, happart.dirs, happart.texts, earlier, later, _, rfl, rfl, ?_⟩
  have hmodels : (unknownModels o'.lines).map (unknownModel name) = (unknownModels o.lines).map (unknownModel name) ↔
      unknownModels o'.lines = unknownModels o.lines :=
    ⟨fun heq => by rw [h'.unknownModels_eq name, heq, ← h.unknownModels_eq name], congrArg _⟩
  have hmissing : missingEndif name last' = missingEndif name last ↔ last' = last := by simp [missingEndif]
  rw [← Array.toList_inj, faults_eq_iff, hmodels, hmissing]

/-- A conditional on a model that does not exist, in a section that does not count. It is reported, and
no longer is when other lines stand in its place. -/
theorem readFile_skipped_unknownModel :
    let setup := SourceSetup.ofTree {} {}
    let text := "#ifdef A\n#ifmod C64\n#endif\n#endif"
    let text' := "#ifdef A\n nop\n ret\n#endif"
    let read := readFile setup 1 none [] "main.asm" text {}
    let read' := readFile setup 1 none [] "main.asm" text' {}
    isActive (readBefore setup 0 none [] "main.asm" {} text ["#ifdef A"]).1.sections = false ∧
      (∃ o o' : Outline, Contains 0 text ["#ifdef A"] ["#ifmod C64", "#endif"] ["#endif"] o ∧
        Contains 0 text' ["#ifdef A"] [" nop", " ret"] ["#endif"] o') ∧
      read'.1 = read.1 ∧ read'.2.diagnostics ≠ read.2.diagnostics := by
  intro setup text text' read read'
  have hidle : isActive
      (readBefore setup 0 none [] "main.asm" {} text ["#ifdef A"]).1.sections = false := by decide +kernel
  have hparts : Text.lines text = ["#ifdef A"] ++ ["#ifmod C64", "#endif"] ++ ["#endif"] ∧
      Text.lines text' = ["#ifdef A"] ++ [" nop", " ret"] ++ ["#endif"] := by
    decide +kernel
  have hreads : (ofSource 0 text).2.isEmpty ∧ (ofSource 0 text').2.isEmpty := by
    decide +kernel
  have hfound : (Outline.ofLines? (ofTextLines 0 1 ["#ifmod C64", "#endif"]).1).isSome ∧
      (Outline.ofLines? (ofTextLines 0 1 [" nop", " ret"]).1).isSome := by
    decide +kernel
  have hmodels : unknownModels (ofTextLines 0 1 ["#ifmod C64", "#endif"]).1 = [⟨0, 1⟩] ∧
      unknownModels (ofTextLines 0 1 [" nop", " ret"]).1 = [] := by
    decide +kernel
  obtain ⟨o, ho⟩ := Option.isSome_iff_exists.1 hfound.1
  obtain ⟨o', ho'⟩ := Option.isSome_iff_exists.1 hfound.2
  have hlines := Outline.lines_of_ofLines? ho
  have hlines' := Outline.lines_of_ofLines? ho'
  have h : Contains 0 text ["#ifdef A"] ["#ifmod C64", "#endif"] ["#endif"] o :=
    ⟨hparts.1, isEmpty_iff.1 hreads.1, hlines.symm⟩
  have h' : Contains 0 text' ["#ifdef A"] [" nop", " ret"] ["#endif"] o' :=
    ⟨hparts.2, isEmpty_iff.1 hreads.2, hlines'.symm⟩
  obtain ⟨hkept, -, -, -, -, earlier, later, closed, -, -, hfaults⟩ :=
    readFile_skipped setup 0 none [] "main.asm" {} text text' ["#ifdef A"] ["#ifmod C64", "#endif"] [" nop", " ret"]
      ["#endif"] o o' h h' rfl hidle
  refine ⟨hidle, ⟨o, o', h, h'⟩, hkept, fun heq => ?_⟩
  have hsame := (hfaults.1 heq).1
  rw [hlines, hlines', hmodels.1, hmodels.2] at hsame
  cases hsame

end SourceTree

end SpectrumAsm
