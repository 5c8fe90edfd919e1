/-
The program behind the command line: read the settings, assemble, report what is wrong or write the
results.
-/
import SpectrumAsm.Assemble
import SpectrumAsm.CommandLine
import SpectrumAsm.Output.Listing
import SpectrumAsm.Output.SymbolMap

namespace SpectrumAsm

open SpectrumAsm.Cpu (Model)
open SpectrumAsm.Text (styled padLeft)

namespace CommandLine

def options (line : CommandLine) (tree : FileTree) : Except String Options := do
  let base ← match line.config with
    | some path => (Options.load tree path).mapError Fault.message
    | none => .ok {}
  let model ← match line.model with
    | some name => ((Model.parse name).mapError fun e => e.message).map some
    | none => .ok base.model
  return { base with
    model
    predefined := base.predefined ++ line.defines
    maxLoopErrors := line.maxLoopErrors.getD base.maxLoopErrors
    explicitLocals := base.explicitLocals || line.explicitLocals
    defaultStart := line.start.getD base.defaultStart }

end CommandLine

/-- What a run of the program leaves behind: the lines it prints, the files it writes by their
places, and its exit code. -/
structure Run where
  printed : List String := []
  written : List (List String × ByteArray) := []
  exit : UInt32 := 0

namespace Run

/-! ## Messages -/

def alarm (text : String) : String := styled [.red, .bold] text

def explain (tree : FileTree) (names : List String) (d : Diagnostic) : List String :=
  let source := if names.contains d.file then
      match tree.readText d.file with
      | .ok text => (Text.lines text).getD d.line ""
      | .error _ => ""
    else ""
  let number := toString (d.line + 1)
  let bar := styled [.blue] "|"
  [ alarm ("error[" ++ d.fault.code ++ "]") ++ ": " ++ d.fault.message,
    "     " ++ styled [.blue] "-->" ++ " " ++ styled [.underline] (d.file ++ ":" ++ number),
    "      " ++ bar,
    " " ++ styled [.blue] (padLeft 4 number ++ " |") ++ " " ++ source,
    "      " ++ bar ]

def rule : String :=
  String.ofList (List.replicate 19 '-') ++ "+" ++ String.ofList (List.replicate 53 '-')

/-! ## Steps -/

def print (r : Run) (lines : List String) : Run := { r with printed := r.printed ++ lines }

def fail (r : Run) (lines : List String) : Run := { r.print lines with exit := 1 }

def write (r : Run) (tree : FileTree) (path : String) (contents : ByteArray) :
    Except Run (Run × FileTree) :=
  match tree.locateNew path with
  | .ok place =>
    .ok ({ r with written := r.written.filter (·.1 != place) ++ [(place, contents)] },
      tree.insert place contents)
  | .error e => .error (r.fail [alarm "Failed to write File" ++ ": " ++ e.message])

def save (r : Run) (line : CommandLine) (tree : FileTree) (o : Output) : Except Run Run := do
  let r := r.print ["3. Write Binary", "  > " ++ line.output]
  let (r, tree) ← r.write tree line.output ⟨o.bytes.toArray⟩
  let (r, _) ← match line.symbols with
    | none => .ok (r, tree)
    | some path =>
      (r.print ["4. Write Symbol Map", "  > " ++ path]).write tree path (SymbolMap.text o).toUTF8
  return if line.dump then r.print (Listing.lines o ++ [rule]) else r

def finish (r : Run) (line : CommandLine) (tree : FileTree) (o : Output) : Run :=
  let r := r.print (o.trace.toList.map fun text => "  " ++ styled [.cyan] "trace" ++ ": " ++ text)
  if o.diagnostics.isEmpty then
    match r.save line tree o with
    | .ok r => r
    | .error r => r
  else
    r.fail (o.diagnostics.toList.flatMap (explain tree o.names.toList) ++
      [alarm (toString o.diagnostics.size ++ " error(s)")])

end Run

def CommandLine.run (line : CommandLine) (tree : FileTree) (clock : Nat → UInt64) : Run :=
  let r : Run := { printed := ["ZX Spectrum Z80 Assembler", "1. Load Options"] }
  match line.options tree with
  | .error e => r.fail [Run.alarm "Invalid options" ++ ": " ++ e]
  | .ok options =>
    (r.print ["2. Assemble", "  < " ++ line.input]).finish line tree
      (assembleFile { options, tree, clock } line.input)

/-- The run of the program with given words. A command line that is refused prints nothing and exits
with code 2. -/
def run (words : List String) (tree : FileTree) (clock : Nat → UInt64) : Run :=
  match CommandLine.parse words with
  | some line => line.run tree clock
  | none => { exit := 2 }

end SpectrumAsm
