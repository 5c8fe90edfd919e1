/-
The state of an assembly, and the two kinds of steps on it.

A `Walk` always goes through; faults of the source end up among the diagnostics. A `Step` may stop at a fault,
and keeps what it did before.
-/
import SpectrumAsm.Patch
import SpectrumAsm.Segment
import SpectrumAsm.SourceTree
import SpectrumAsm.SymbolTable.Define
import SpectrumAsm.SymbolTable.Lookup

namespace SpectrumAsm

open SpectrumAsm.Cpu

/-- What stays the same during an assembly: the settings, the files by number with their directories, the
files that can be read, and the time of day at each reading of the clock. -/
structure Setup where
  options : Options := {}
  names : Array String := #[]
  dirs : Array (Option String) := #[]
  tree : FileTree := {}
  clock : Nat → UInt64 := fun _ => 0

/-- The structure instance whose fields can be overridden: its place, and where the next override
without a name goes. -/
structure StructInstance where
  name : String
  size : Nat
  fields : NameTable Nat
  segment : Nat
  start : Nat
  cursor : Nat
  deriving Repr

structure Assembly where
  setup : Setup
  segments : Array Segment := #[]
  symbols : SymbolTable
  /-- patches that wait, in order of appearance -/
  pending : Array Patch := #[]
  diagnostics : Array Diagnostic := #[]
  random : Random
  /-- how often the clock has been read -/
  readings : Nat := 1
  model : Option Model := none
  entry : Option UInt16 := none
  exportEntry : Option UInt16 := none
  /-- the address and line of every operation, in order of assembly -/
  placed : Array (UInt16 × Position) := #[]
  trace : Array String := #[]
  /-- a label that waits for the next line that has an address -/
  hanging : Option (String × Position) := none
  macroDepth : Nat := 0
  opened : Option StructInstance := none
  /-- an override was accepted that does not lie inside the bytes of its instance -/
  overrun : Bool := false
  pos : Position := ⟨0, 0⟩
  /-- the value of `$` on the line being assembled -/
  origin : UInt16

abbrev Walk := StateM Assembly

abbrev Step := ExceptT Fault (StateM Assembly)

namespace Assembly

def new (setup : Setup) : Assembly where
  setup := setup
  symbols := .new setup.options.explicitLocals
  random := .ofSeed (setup.clock 0)
  origin := setup.options.defaultStart

def reportAt (a : Assembly) (fault : Fault) (pos : Position) : Assembly :=
  let file := SourceTree.fileName a.setup.names pos.file
  { a with diagnostics := a.diagnostics.push { fault, file, line := pos.line } }

def report (a : Assembly) (fault : Fault) : Assembly :=
  a.reportAt fault a.pos

/-- The address the next byte goes to, as labels see it. -/
def address (a : Assembly) : UInt16 :=
  match a.segments.back? with
  | some s => s.here
  | none => a.setup.options.defaultStart

/-- The address behind the last byte, displacement apart. -/
def stop (a : Assembly) : Nat :=
  match a.segments.back? with
  | some s => s.stop
  | none => a.setup.options.defaultStart.toNat

def openSegment (a : Assembly) : Assembly :=
  if a.segments.isEmpty then
    { a with segments := #[{ start := a.setup.options.defaultStart }] }
  else a

def lastSegment (a : Assembly) : Nat := a.segments.size - 1

/-- The model code is made for: that of the source, or else that of the settings. -/
def effectiveModel (a : Assembly) : Model :=
  (a.model.or a.setup.options.model).getD .spectrum48

def isInterrupted (a : Assembly) : Bool :=
  (a.symbols.topScope?.bind (·.exit)).isSome

/-- Moving to a line. `$` is the address at its start. -/
def moveTo (a : Assembly) (pos : Position) : Assembly :=
  let origin := a.address
  { a with pos, origin }

def addPatch (a : Assembly) (kind : PatchKind) (segment offset : Nat) (expr : Expr)
    (target : Option (Slot × String)) : Assembly :=
  let patch : Patch := {
    kind, segment, offset, expr, target
    scope := a.symbols.top?
    module := a.symbols.current
    origin := a.origin
    pos := a.pos }
  { a with pending := a.pending.push patch }

def openScope (a : Assembly) (kind : ScopeKind) : Assembly :=
  { a with symbols := a.symbols.openScope kind }

def isAwaited (a : Assembly) (id : Nat) : Bool :=
  a.pending.any fun p => a.symbols.encloses p.scope id

/-- The innermost scope closed. Its symbols are kept as long as a patch may need them. -/
def closeScope (a : Assembly) : Assembly :=
  let keep := match a.symbols.top? with
    | some id => a.isAwaited id
    | none => false
  { a with symbols := a.symbols.closeScope keep }

def define (a : Assembly) (name : String) (kind : SymbolKind) (value : Option Value) :
    Except Fault Slot × Assembly :=
  let key := Text.upcase name
  let slot := a.symbols.labelSlot key
  if a.symbols.isTaken slot key then (.error (.labelDefined name), a)
  else
    let pos := a.pos
    (.ok slot, { a with symbols := a.symbols.addSymbol slot { name := key, kind, value, pos } })

def setVar (a : Assembly) (name : String) (value : Value) : Except Fault Unit × Assembly :=
  let key := Text.upcase name
  match a.symbols.varSlot key with
  | .error fault => (.error fault, a)
  | .ok slot =>
    let pos := a.pos
    (.ok (), { a with symbols := a.symbols.storeVar slot key value pos })

def recordLine (a : Assembly) (pos : Position) : Assembly :=
  let address := a.address
  { a with placed := a.placed.push (address, pos) }

end Assembly

def Step.of {α : Type} (f : Assembly → Except Fault α × Assembly) : Step α :=
  ExceptT.mk (modifyGet f)

def Step.attempt {α : Type} (x : Step α) : Step (Except Fault α) :=
  Step.of fun a => match x.run.run a with
    | (outcome, a) => (.ok outcome, a)

def report (fault : Fault) : Walk Unit :=
  modify fun a => a.report fault

def reporting (x : Step Unit) : Walk Unit := do
  match ← x.run with
  | .ok () => return ()
  | .error fault => report fault

/-- A step whose fault, if any, becomes a diagnostic, with an answer for that case. -/
def reportingOr {α : Type} (default : α) (x : Step α) : Walk α := do
  match ← x.run with
  | .ok a => return a
  | .error fault =>
    report fault
    return default

end SpectrumAsm
