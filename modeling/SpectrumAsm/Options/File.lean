/-
Settings of an assembly, and settings from a file. Entries under other names are passed over, and settings
that are not in the file keep their defaults.
-/
import SpectrumAsm.Cpu.Model
import SpectrumAsm.Document.Node.Parser
import SpectrumAsm.Fault
import SpectrumAsm.FileTree

namespace SpectrumAsm

open SpectrumAsm.Cpu (Model)
open SpectrumAsm.Document (Node Scalar)

/-- Settings of an assembly. An error limit of zero is no limit. -/
structure Options where
  predefined : List String := []
  /-- the model to build for unless the source names one -/
  model : Option Model := none
  /-- errors in a loop after which it is given up -/
  maxLoopErrors : Nat := 16
  explicitLocals : Bool := false
  /-- passes after which a loop is given up -/
  maxLoopIterations : Int64 := 0xFFFF
  /-- how deep expansions of macros may nest -/
  maxMacroDepth : Nat := 32
  defaultStart : UInt16 := 0x8000
  deriving DecidableEq, Repr

namespace Options

inductive Setting where
  | predefined | model | maxLoopErrors | explicitLocals | maxLoopIterations | maxMacroDepth
  | defaultStart
  deriving DecidableEq, Repr

def Setting.keys : List (String × Setting) :=
  [("predefined-symbols", .predefined), ("current-model", .model),
    ("max-loop-errors-to-report", .maxLoopErrors), ("proc-explicit-locals-only", .explicitLocals),
    ("max-loop-iterations", .maxLoopIterations), ("max-macro-depth", .maxMacroDepth),
    ("default-start-address", .defaultStart)]

/-- The model a scalar names, in exact spelling; the inner `none` is said by a scalar that stands for nothing.
A tag can name the model too, and then the text has to stand for nothing. -/
def modelOf (s : Scalar) : Option (Option Model) :=
  if s.isPlain && s.hasTag "null" then if s.isNullWord then some none else none
  else if s.tag.isNone && s.isVoid then some none
  else
    match s.ownTag? with
    | some name => if s.isVoid then (Model.spellings.lookup name).map some else none
    | none => (Model.spellings.lookup s.text).map some

def put (o : Options) (d : Document) (key : Setting) (v : Node) : Option Options := do
  match key with
  | .predefined => return { o with predefined := ← d.texts? v }
  | .model => return { o with model := ← modelOf (← d.scalar? v) }
  | .maxLoopErrors => return { o with maxLoopErrors := ← (← d.scalar? v).nat? (1 <<< 64) }
  | .explicitLocals => return { o with explicitLocals := ← (← d.scalar? v).bool? }
  | .maxLoopIterations => return { o with maxLoopIterations := ← (← d.scalar? v).int? }
  | .maxMacroDepth => return { o with maxMacroDepth := ← (← d.scalar? v).nat? (1 <<< 64) }
  | .defaultStart =>
    return { o with defaultStart := UInt16.ofNat (← (← d.scalar? v).nat? 0x10000) }

def settingsOf (entries : List (String × Node)) : List (Setting × Node) :=
  entries.filterMap fun (key, v) => (Setting.keys.lookup key).map fun s => (s, v)

def ofDocument (d : Document) : Option Options := do
  let settings := settingsOf (← d.entries?)
  if decide (settings.map Prod.fst).Nodup then
    settings.foldlM (fun o (key, v) => o.put d key v) {}
  else none

def ofText (text : String) : Option Options := do ofDocument (← Document.parse text)

def load (tree : FileTree) (path : String) : Except Fault Options :=
  match tree.readText path with
  | .ok text =>
    match ofText text with
    | some o => .ok o
    | none => .error (.config path "invalid settings")
  | .error .notText => .error (.config path FileFault.notText.message)
  | .error .isDirectory => .error (.config path FileFault.isDirectory.message)
  | .error _ => .error (.fileOpen path)

end Options

end SpectrumAsm
