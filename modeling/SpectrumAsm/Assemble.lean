/-
From source texts and files to finished output.
-/
import SpectrumAsm.Assembly.Walk
import SpectrumAsm.Output

namespace SpectrumAsm

/-- The output of an assembly, with the faults found while reading the source in front. -/
def Output.ofAssembly (source : SourceTree) (a : Assembly) : Output where
  diagnostics := source.diagnostics ++ a.diagnostics
  segments := a.segments
  symbols := a.symbols.exported
  entry := a.entry
  exportEntry := a.exportEntry
  placed := a.placed
  names := a.setup.names
  model := a.model
  trace := a.trace
  overrun := a.overrun

/-- The surroundings of an assembly: settings, files, and the time of day at each reading of the clock. -/
structure Host where
  options : Options := {}
  tree : FileTree := {}
  clock : Nat → UInt64 := fun _ => 0

/-- A source text assembled under a name; `dir` is the directory its includes are relative to. -/
def assemble (host : Host) (name : String) (dir : Option String) (source : String) : Output :=
  let (lines, tree) := SourceTree.read host.options host.tree name dir source
  let setup : Setup := {
    options := host.options
    names := tree.names
    dirs := tree.dirs
    tree := host.tree
    clock := host.clock }
  let (_, a) := (assembleLines lines).run (Assembly.new setup)
  .ofAssembly tree a

def assembleText (host : Host) (source : String) : Output :=
  assemble host "<source>" none source

def directoryOf (path : String) : String :=
  let dir := Path.parent path
  if dir.isEmpty then "." else dir

def assembleFile (host : Host) (path : String) : Output :=
  match host.tree.readText path with
  | .error _ =>
    { diagnostics := #[{ fault := .fileOpen path, file := path, line := 0 }], names := #[path] }
  | .ok source => assemble host path (some (directoryOf path)) source

end SpectrumAsm
