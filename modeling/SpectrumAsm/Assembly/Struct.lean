/-
Structures: their definition, their instances, and overrides of fields.

The lines of a structure are measured in a segment of their own, and put into the program again by each
instance. An override is put behind the instance first and then moved to its field; patches of the bytes it
covers no longer apply.
-/
import SpectrumAsm.Assembly.Pragma

namespace SpectrumAsm

/-! ## Definition -/

def fitsStruct (line : SourceLine) : Bool :=
  match line.stmt with
  | none => true
  | some (.pragma p) => p.emitsData
  | some _ => false

def endsWithLabel (lines : List SourceLine) : Bool :=
  lines.foldl (fun ends l => l.stmt.isNone && (ends || l.label.isSome)) false

/-- What is wrong with the lines of a structure. -/
def structFaults (body : List SourceLine) (close : SourceLine) : List (Fault × Position) :=
  (body.filter fun line => !fitsStruct line).map (fun line => (.structContent, line.pos)) ++
    if close.label.isSome || endsWithLabel body then [(.endsLabel, close.pos)] else []

/-- A line of a structure measured: its label is a field at the bytes that came before. -/
def measureLine (fields : NameTable Nat) (line : SourceLine) : Walk (NameTable Nat) := do
  modify fun a => a.moveTo line.pos
  let fields ← match line.label with
    | some label => do
      let key := Text.upcase label
      if fields.contains key then report (.duplicateField label)
      let a ← get
      pure (fields.insert key ((a.segments[0]?.map (·.bytes.size)).getD 0))
    | none => pure fields
  match line.stmt with
  | some (.pragma p) => reporting (runPragma none p)
  | _ => pure ()
  return fields

/-- The size and the fields of a structure. Segments and patches are left as they were. -/
def measureStruct (body : List SourceLine) : Walk (Nat × NameTable Nat) := do
  let a ← get
  let segments := a.segments
  let pending := a.pending
  let pos := a.pos
  modify fun a => { a with segments := #[{ start := 0 }] }
  let fields ← body.foldlM measureLine {}
  let size := ((← get).segments[0]?.map (·.bytes.size)).getD 0
  modify fun a => { a with segments, pending, pos }
  return (size, fields)

/-- The symbols of a structure: its own name stands for its size, and each field for its offset. -/
def StructDef.symbols (d : StructDef) : List (String × SymbolKind × Nat) :=
  (d.name, .label, d.size) :: d.fields.entries.map fun (field, offset) => (d.name ++ "." ++ field, .structField, offset)

def defineNumber : String × SymbolKind × Nat → Step Unit := fun (name, kind, n) => do
  let _ ← Step.of fun a => a.define name kind (some (.int (Int64.ofNat n)))

def enterStruct (key : String) (body : List SourceLine) : Step Unit := do
  let (size, fields) ← measureStruct body
  let d : StructDef := { name := key, size, fields, body }
  d.symbols.forM defineNumber
  modify fun a => { a with symbols := a.symbols.addStruct d }

def defineStruct (name : Option String) (body : List SourceLine) (close : SourceLine) :
    Step Unit := do
  let some name := name | throw .structName
  let key := Text.upcase name
  if (← get).symbols.hasStruct key then throw (.structDefined name)
  let faults := structFaults body close
  modify fun a => faults.foldl (fun a (fault, pos) => a.reportAt fault pos) a
  if faults.isEmpty then enterStruct key body

/-! ## Instances -/

def instanceLine (line : SourceLine) : Walk Unit :=
  match line.stmt with
  | some (.pragma p) => do
    modify fun a => a.moveTo line.pos
    reporting (runPragma none p)
  | _ => return ()

def invokeStruct (d : StructDef) : Walk Unit := do
  modify fun a => a.openSegment
  let a ← get
  let segment := a.lastSegment
  let start := (a.segments.back?.map (·.bytes.size)).getD 0
  let pos := a.pos
  d.body.forM instanceLine
  modify fun a => { a with
    pos
    opened := some
      { name := d.name, size := d.size, fields := d.fields, segment, start, cursor := 0 } }

/-! ## Overrides -/

def StructInstance.seek (i : StructInstance) (field : Option String) :
    Except Fault StructInstance :=
  match field with
  | none => .ok i
  | some field =>
    match i.fields.get? (Text.upcase field) with
    | some cursor => .ok { i with cursor }
    | none => .error (.unknownField i.name field)

def Patch.moveToField (p : Patch) (source target : Nat) : Patch :=
  { p with offset := p.offset - source + target, kind := p.kind.inField }

namespace Assembly

def segmentSize (a : Assembly) (segment : Nat) : Nat :=
  (a.segments[segment]?.map (·.bytes.size)).getD 0

def bytesFrom (a : Assembly) (segment offset : Nat) : List UInt8 :=
  (a.segments[segment]?.map fun s => (s.bytes.extract offset s.bytes.size).toList).getD []

def cutSegment (a : Assembly) (segment size : Nat) : Assembly :=
  { a with segments := a.segments.modify segment fun s =>
    { s with bytes := s.bytes.extract 0 size } }

def cutPending (a : Assembly) (size : Nat) : Assembly :=
  { a with pending := a.pending.extract 0 size }

/-- Bytes behind an instance, from offset `source` on and with the patches from number `first` on, moved to
its cursor. -/
def moveOverride (a : Assembly) (i : StructInstance) (source first : Nat) :
    Except Fault Unit × Assembly :=
  let bytes := a.bytesFrom i.segment source
  let a := a.cutSegment i.segment source
  let wanted := i.cursor + bytes.length
  if wanted > i.size then (.error (.structOverflow i.name i.size wanted), a.cutPending first)
  else
    let target := i.start + i.cursor
    let a :=
      if target + bytes.length ≤ source then a.patchBytes i.segment target bytes
      else { a with overrun := true }
    let earlier := (a.pending.extract 0 first).filter fun p =>
      !p.touches i.segment target (target + bytes.length)
    let later := (a.pending.extract first a.pending.size).map (·.moveToField source target)
    (.ok (), { a with pending := earlier ++ later, opened := some { i with cursor := wanted } })

end Assembly

def putOverride (i : StructInstance) (p : Pragma) : Step Unit := do
  let a ← get
  let source := a.segmentSize i.segment
  let first := a.pending.size
  modify fun a => { a with
    origin := ((a.segments[i.segment]?.map (·.wordAt (i.start + i.cursor))).getD 0) }
  match ← (runPragma none p).attempt with
  | .ok () => Step.of fun a => a.moveOverride i source first
  | .error fault =>
    modify fun a => (a.cutSegment i.segment source).cutPending first
    throw fault

def overrideField (field : Option String) (p : Pragma) : Step Unit := do
  let some i := (← get).opened | throw .fieldOutside
  let i ← ofExcept (i.seek field)
  modify fun a => { a with opened := some i }
  unless p.emitsData do throw .structContent
  putOverride i p

end SpectrumAsm
