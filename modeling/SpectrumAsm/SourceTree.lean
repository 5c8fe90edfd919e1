/-
A program with everything it includes: the lines left after its directives have been obeyed.

Directives are obeyed from top to bottom, also those of included files, which share the set of defined names.
A file may not be included while it is still being read, nor twice by one file. A file that is opened again
gets a new number.
-/
import SpectrumAsm.Conditional
import SpectrumAsm.Expr.Evaluation
import SpectrumAsm.Options.File
import SpectrumAsm.SourceLine.Parser

namespace SpectrumAsm

open SpectrumAsm.Cpu

/-- What has been read so far: the defined names, and of each file its name, its directory, its
lines of text and the faults found in it. -/
structure SourceTree where
  defines : List String := []
  names : Array String := #[]
  dirs : Array (Option String) := #[]
  texts : NameTable (List String) := {}
  diagnostics : Array Diagnostic := #[]

/-- What stays the same while a program is read: the one path of the place another path leads to, the
text that is there, and the model. -/
structure SourceSetup where
  canonical? : String → Option String
  readText : String → Except FileFault String
  model : Model

def SourceSetup.ofTree (options : Options) (tree : FileTree) : SourceSetup where
  canonical? := tree.canonical?
  readText := tree.readText
  model := options.model.getD .spectrum48

/-- Progress within one file: the lines kept so far in reverse, the open sections, the files
included from here, and the number of the last line. -/
structure FileProgress where
  kept : List SourceLine := []
  sections : List Conditional := []
  included : List String := []
  last : Nat := 0

namespace SourceTree

def fileName (names : Array String) (file : Nat) : String := names[file]?.getD ""

def report (t : SourceTree) (fault : Fault) (pos : Position) : SourceTree :=
  let file := fileName t.names pos.file
  { t with diagnostics := t.diagnostics.push { fault, file, line := pos.line } }

def isDefined (t : SourceTree) (name : String) : Bool :=
  t.defines.contains (Text.upcase name)

def define (t : SourceTree) (name : String) : SourceTree :=
  if t.isDefined name then t else { t with defines := Text.upcase name :: t.defines }

def undefine (t : SourceTree) (name : String) : SourceTree :=
  { t with defines := t.defines.filter (· != Text.upcase name) }

/-- What a condition can refer to: defined names are true, all others false. -/
def conditionEnv (t : SourceTree) : Env where
  symbol ref := some (.bool (t.defines.contains ref.joined))
  address := 0
  counter := none

def evalCondition (t : SourceTree) (e : Expr) : Except Fault Bool :=
  match ((e.evaluate t.conditionEnv).run.run (Random.ofSeed 0)).1 with
  | .ok (.ready v) => .ok (v.truth?.getD false)
  | .ok (.pending _) => .ok false
  | .error fault => .error (.ofExpr fault)

def evalModel (model : Model) (name : String) (wanted : Bool) : Except Fault Bool :=
  match Model.parse name with
  | .ok m => .ok ((m == model) == wanted)
  | .error _ => .error .ifModValue

def includePath (dir : Option String) (path : String) : String :=
  match dir with
  | some dir => Path.join dir path
  | none => path

/-- The file that an `#include` means and its text. Also returned is the list of files included from
here, to which the file belongs even if it cannot be read. -/
def findInclude (setup : SourceSetup) (dir : Option String) (chain included : List String)
    (path : String) : List String × Except Fault (String × String) :=
  match setup.canonical? (includePath dir path) with
  | none => (included, .error (.includeNotFound path))
  | some full =>
    if chain.contains full then (included, .error (.includeCircular path))
    else if included.contains full then (included, .error (.includeTwice path))
    else
      (full :: included,
        match setup.readText full with
        | .ok text => .ok (full, text)
        | .error reason => .error (.includeRead path reason.message))

/-- What reads an included file: given the chain of open files, its name and its text. -/
abbrev ReadFile := List String → String → String → SourceTree → List SourceLine × SourceTree

/-- A directive obeyed. Conditions inside a section that does not count are not reported, except for
unknown models. -/
def obey (setup : SourceSetup) (readFile : ReadFile) (dir : Option String) (chain : List String)
    (pos : Position) (d : Directive) (p : FileProgress) (t : SourceTree) :
    FileProgress × SourceTree :=
  let active := Conditional.isActive p.sections
  let enter (selected : Bool) : FileProgress :=
    { p with sections := Conditional.enter p.sections selected }
  match d with
  | .define name => (p, if active then t.define name else t)
  | .undef name => (p, if active then t.undefine name else t)
  | .ifDef name => (enter (t.isDefined name), t)
  | .ifNotDef name => (enter !(t.isDefined name), t)
  | .ifTrue e =>
    match t.evalCondition e with
    | .ok selected => (enter selected, t)
    | .error fault => (enter false, if active then t.report fault pos else t)
  | .ifModel name =>
    match evalModel setup.model name true with
    | .ok selected => (enter selected, t)
    | .error fault => (enter false, t.report fault pos)
  | .ifNotModel name =>
    match evalModel setup.model name false with
    | .ok selected => (enter selected, t)
    | .error fault => (enter false, t.report fault pos)
  | .otherwise =>
    match Conditional.alternate? p.sections with
    | some sections => ({ p with sections }, t)
    | none => (p, t.report .unexpectedElse pos)
  | .endIf =>
    match Conditional.leave? p.sections with
    | some sections => ({ p with sections }, t)
    | none => (p, t.report .unexpectedEndif pos)
  | .includeFile path =>
    if active then
      match findInclude setup dir chain p.included path with
      | (included, .ok (full, text)) =>
        let (lines, t) := readFile (full :: chain) full text t
        ({ p with included, kept := lines.reverse ++ p.kept }, t)
      | (included, .error fault) => ({ p with included }, t.report fault pos)
    else (p, t)

def readLine (setup : SourceSetup) (readFile : ReadFile) (dir : Option String) (chain : List String)
    (line : SourceLine) (p : FileProgress) (t : SourceTree) : FileProgress × SourceTree :=
  let p := { p with last := line.pos.line }
  match line.stmt with
  | some (.directive d) => obey setup readFile dir chain line.pos d p t
  | _ => (if Conditional.isActive p.sections then { p with kept := line :: p.kept } else p, t)

def openFile (t : SourceTree) (name : String) (dir : Option String) (text : String) :
    Nat × SourceTree :=
  (t.names.size,
    { t with
      names := t.names.push name
      dirs := t.dirs.push dir
      texts := t.texts.insert name (Text.lines text) })

/-- The lines a file contributes. `depth` bounds how many files can be open inside one another; as
no file is open twice, the number of places is enough. -/
def readFile (setup : SourceSetup) :
    Nat → Option String → List String → String → String → SourceTree →
      List SourceLine × SourceTree
  | 0, _, _, _, _, t => ([], t)
  | depth + 1, dir, chain, name, text, t =>
    let (file, t) := t.openFile name dir text
    let (lines, faults) := SourceLine.ofSource file text
    let t := faults.foldl (fun t (line, fault) => t.report fault ⟨file, line⟩) t
    let inner : ReadFile := fun chain name text t =>
      readFile setup depth (some (Path.parent name)) chain name text t
    let (p, t) := lines.foldl (fun (p, t) line => readLine setup inner dir chain line p t)
      (({} : FileProgress), t)
    let t := if p.sections.isEmpty then t else t.report .missingEndif ⟨file, p.last⟩
    (p.kept.reverse, t)

def start (options : Options) : SourceTree where
  defines := distinct (options.predefined.map Text.upcase)

/-- The whole program: its text, those of its includes, and the lines to assemble. A program read
from a file has a directory, and may not include itself. -/
def read (options : Options) (tree : FileTree) (name : String) (dir : Option String)
    (text : String) : List SourceLine × SourceTree :=
  let chain := (dir.bind fun _ => tree.canonical? name).toList
  readFile (.ofTree options tree) (tree.places.length + 1) dir chain name text (start options)

end SourceTree

end SpectrumAsm
