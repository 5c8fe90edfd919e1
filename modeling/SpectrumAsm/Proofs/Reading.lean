/-
How a file is read, line by line.

`FileReader` groups what stays the same while the lines of a file are read, above all what reads the files
they include, which may go one level less deep (`readFile_succ`).
-/
import SpectrumAsm.SourceTree

namespace SpectrumAsm

open SpectrumAsm.Cpu SourceTree

/-! ## Tests -/

inductive Test where
  | defined (name : String)
  | undefined (name : String)
  | holds (e : Expr)
  | model (name : String)
  | otherModel (name : String)

namespace Test

def directive : Test → Directive
  | defined name => .ifDef name
  | undefined name => .ifNotDef name
  | holds e => .ifTrue e
  | model name => .ifModel name
  | otherModel name => .ifNotModel name

def outcome (model : Model) (defines : List String) : Test → Except Fault Bool
  | defined name => .ok (defines.contains (Text.upcase name))
  | undefined name => .ok !(defines.contains (Text.upcase name))
  | holds e => evalCondition { defines } e
  | Test.model name => SourceTree.evalModel model name true
  | otherModel name => evalModel model name false

/-- Whether the first branch is selected. A test that is at fault selects the second one. -/
def selects (model : Model) (defines : List String) (test : Test) : Bool :=
  match test.outcome model defines with
  | .ok selected => selected
  | .error _ => false

def namesUnknownModel : Test → Bool
  | model name | otherModel name =>
    match Model.parse name with
    | .ok _ => false
    | .error _ => true
  | _ => false

end Test

def Directive.test? : Directive → Option Test
  | ifDef name => some (.defined name)
  | ifNotDef name => some (.undefined name)
  | ifTrue e => some (.holds e)
  | ifModel name => some (.model name)
  | ifNotModel name => some (.otherModel name)
  | _ => none

theorem SourceTree.evalCondition_defines (t : SourceTree) (e : Expr) :
    evalCondition { defines := t.defines } e = t.evalCondition e := rfl

/-! ## Lines -/

def SourceLine.directive? (line : SourceLine) : Option Directive :=
  match line.stmt with
  | some (.directive d) => some d
  | _ => none

/-- What has been read of a file, and of the program so far. -/
abbrev ReadState := FileProgress × SourceTree

/-- What stays the same while a file is read. -/
structure FileReader where
  setup : SourceSetup
  readFile : ReadFile
  dir : Option String
  chain : List String

namespace FileReader

def line (r : FileReader) (x : ReadState) (line : SourceLine) : ReadState :=
  readLine r.setup r.readFile r.dir r.chain line x.1 x.2

def lines (r : FileReader) (lines : List SourceLine) (x : ReadState) : ReadState := lines.foldl r.line x

/-- The reader of a file inside which `depth` more can be open. -/
def nested (setup : SourceSetup) (depth : Nat) (dir : Option String) (chain : List String) : FileReader where
  setup := setup
  readFile := fun chain name text t =>
    SourceTree.readFile setup depth (some (Path.parent name)) chain name text t
  dir := dir
  chain := chain

section
variable (r : FileReader) (x : ReadState)

@[simp] theorem lines_cons (line : SourceLine) (lines : List SourceLine) :
    r.lines (line :: lines) x = r.lines lines (r.line x line) := rfl

@[simp] theorem lines_append (ls ms : List SourceLine) : r.lines (ls ++ ms) x = r.lines ms (r.lines ls x) :=
  List.foldl_append

theorem line_eq (l : SourceLine) : r.line x l =
    match l.directive? with
    | some d => obey r.setup r.readFile r.dir r.chain l.pos d { x.1 with last := l.pos.line } x.2
    | none =>
      (if Conditional.isActive x.1.sections then { x.1 with last := l.pos.line, kept := l :: x.1.kept }
        else { x.1 with last := l.pos.line }, x.2) := by
  obtain ⟨pos, label, _ | s, comment⟩ := l
  · rfl
  · cases s <;> rfl

theorem obey_test (pos : Position) (test : Test) (p : FileProgress) (t : SourceTree) :
    SourceTree.obey r.setup r.readFile r.dir r.chain pos test.directive p t =
      ({ p with sections := Conditional.enter p.sections (test.selects r.setup.model t.defines) },
        match test.outcome r.setup.model t.defines with
        | .ok _ => t
        | .error fault =>
          if Conditional.isActive p.sections || test.namesUnknownModel then t.report fault pos else t) := by
  cases test with
  | defined name | undefined name => rfl
  | holds e =>
    simp only [SourceTree.obey, Test.directive, Test.selects, Test.outcome, Test.namesUnknownModel,
      SourceTree.evalCondition_defines, Bool.or_false]
    cases t.evalCondition e <;> rfl
  | model name | otherModel name =>
    cases h : Model.parse name <;>
      simp [SourceTree.obey, Test.directive, Test.selects, Test.outcome, Test.namesUnknownModel,
        SourceTree.evalModel, h]

end

end FileReader

def FileProgress.finish (p : FileProgress) (file : Nat) (t : SourceTree) : SourceTree :=
  if p.sections.isEmpty then t else t.report .missingEndif ⟨file, p.last⟩

namespace SourceTree

/-- A file entered, and the lines reported that cannot be read. -/
def enterFile (t : SourceTree) (name : String) (dir : Option String) (text : String) : SourceTree :=
  let file := t.names.size
  (SourceLine.ofSource file text).2.foldl (fun t (line, fault) => t.report fault ⟨file, line⟩)
    (t.openFile name dir text).2

theorem readFile_succ (setup : SourceSetup) (depth : Nat) (dir : Option String) (chain : List String)
    (name text : String) (t : SourceTree) : readFile setup (depth + 1) dir chain name text t =
      let file := t.names.size
      let x := (FileReader.nested setup depth dir chain).lines (SourceLine.ofSource file text).1
        ({}, t.enterFile name dir text)
      (x.1.kept.reverse, x.1.finish file x.2) := rfl

end SourceTree

end SpectrumAsm
