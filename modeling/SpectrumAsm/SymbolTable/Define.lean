/-
Making symbols. Labels and constants are defined once in their place; variables may be set again.
-/
import SpectrumAsm.SymbolTable

namespace SpectrumAsm.SymbolTable

/-- The place a new label or constant goes to: the innermost scope, or the current module if there
is none. A procedure whose locals are explicit passes on all names it did not announce. -/
def labelSlot (t : SymbolTable) (key : String) : Slot :=
  match t.top? with
  | none => .module t.current
  | some id =>
    match t.scopes[id]? with
    | some s =>
      if t.explicitLocals && s.kind == .proc && !s.locals.contains key then .module t.current
      else .scope id
    | none => .scope id

def symbolsAt (t : SymbolTable) : Slot → NameTable Symbol
  | .scope id => (t.scopes[id]?.map (·.symbols)).getD {}
  | .module id => (t.modules[id]?.map (·.symbols)).getD {}

def modifySymbols (t : SymbolTable) (slot : Slot) (f : NameTable Symbol → NameTable Symbol) :
    SymbolTable :=
  match slot with
  | .scope id => t.modifyScope id fun s => { s with symbols := f s.symbols }
  | .module id => t.modifyModule id fun m => { m with symbols := f m.symbols }

def isTaken (t : SymbolTable) (slot : Slot) (key : String) : Bool :=
  (t.symbolsAt slot).contains key

def addSymbol (t : SymbolTable) (slot : Slot) (s : Symbol) : SymbolTable :=
  t.modifySymbols slot (·.insert s.name s)

def defineIn (t : SymbolTable) (slot : Slot) (name : String) (kind : SymbolKind)
    (value : Option Value) (pos : Position) : Except Fault SymbolTable :=
  let key := Text.upcase name
  if t.isTaken slot key then .error (.labelDefined name)
  else .ok (t.addSymbol slot { name := key, kind, value, pos })

def define (t : SymbolTable) (name : String) (kind : SymbolKind) (value : Option Value)
    (pos : Position) : Except Fault (Slot × SymbolTable) :=
  let slot := t.labelSlot (Text.upcase name)
  (t.defineIn slot name kind value pos).map fun t => (slot, t)

def assign (t : SymbolTable) (slot : Slot) (key : String) (value : Value) : SymbolTable :=
  t.modifySymbols slot (·.modify key fun s => { s with value := some value })

/-- The places a variable may be in: the open scopes from the innermost outwards, then the current
module. -/
def varSlots (t : SymbolTable) : List Slot :=
  t.active.map Slot.scope ++ [.module t.current]

def innermostSlot (t : SymbolTable) : Slot :=
  match t.top? with
  | some id => .scope id
  | none => .module t.current

/-- The place of a variable that is to be set: that of the nearest symbol of the name, which has to
be a variable, or else the innermost place. -/
def varSlot (t : SymbolTable) (key : String) : Except Fault Slot :=
  match t.varSlots.find? fun slot => t.isTaken slot key with
  | some slot =>
    match (t.symbolsAt slot).get? key with
    | some s => if s.kind == .var then .ok slot else .error .varRedefine
    | none => .error .varRedefine
  | none => .ok t.innermostSlot

def storeVar (t : SymbolTable) (slot : Slot) (key : String) (value : Value) (pos : Position) :
    SymbolTable :=
  if t.isTaken slot key then t.assign slot key value
  else t.addSymbol slot { name := key, kind := .var, value := some value, pos }

def setVar (t : SymbolTable) (name : String) (value : Value) (pos : Position) :
    Except Fault SymbolTable :=
  let key := Text.upcase name
  (t.varSlot key).map fun slot => t.storeVar slot key value pos

/-- The symbols of all modules under their qualified names, module by module. A name that comes up
again keeps its place and takes the later symbol. -/
def exported (t : SymbolTable) : NameTable Symbol :=
  (List.range t.modules.size).foldl (fun out id =>
    let qualifier := t.qualifier id
    (t.symbolsAt (.module id)).entries.foldl
      (fun out (name, s) => out.insert (qualifier ++ name) s) out) {}

def qualifiedEntries (t : SymbolTable) (id : Nat) : List (String × Symbol) :=
  (t.symbolsAt (.module id)).entries.map fun e => (t.qualifier id ++ e.1, e.2)

/-- The symbols of the first `n` modules with their qualified names. -/
def entriesBelow (t : SymbolTable) (n : Nat) : List (String × Symbol) := (List.range n).flatMap t.qualifiedEntries

theorem exported_eq (t : SymbolTable) :
    t.exported = (t.entriesBelow t.modules.size).foldl (fun out e => out.insert e.1 e.2) {} := by
  unfold exported entriesBelow qualifiedEntries
  simp [List.foldl_flatMap, List.foldl_map]

end SpectrumAsm.SymbolTable
