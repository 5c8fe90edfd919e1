/-
Symbols, and the modules and scopes that hold them.

Modules are named, nest, and stay. Scopes close in the reverse order of opening; each has a number of its own
that is never used again. A scope or a module knows the one around it, whose number is always smaller.
-/
import SpectrumAsm.Fault
import SpectrumAsm.NameTable
import SpectrumAsm.Statement
import SpectrumAsm.Value

namespace SpectrumAsm

inductive SymbolKind where
  | label | equ | var | structField
  deriving DecidableEq, Repr

structure Symbol where
  name : String
  kind : SymbolKind
  value : Option Value
  pos : Position
  deriving DecidableEq, Repr

inductive ScopeKind where
  | proc
  | expansion
  | loop
  | pass
  deriving DecidableEq, Repr

inductive LoopExit where
  | endLoop | nextPass
  deriving DecidableEq, Repr

/-- A scope. Only passes count, and only passes can be left early. -/
structure Scope where
  kind : ScopeKind
  parent : Option Nat
  symbols : NameTable Symbol := {}
  locals : List String := []
  counter : Int64 := 0
  exit : Option LoopExit := none
  deriving Repr

/-- A macro: its parameters, its lines, and the label of its closing line. -/
structure MacroDef where
  name : String
  params : List String
  body : List SourceLine
  endLabel : Option String
  deriving Repr

/-- A structure: its size and the offsets of its fields as measured at the definition, and its
lines. -/
structure StructDef where
  name : String
  size : Nat
  fields : NameTable Nat
  body : List SourceLine
  deriving Repr

structure Module where
  name : String
  parent : Option Nat
  children : NameTable Nat := {}
  symbols : NameTable Symbol := {}
  macros : NameTable MacroDef := {}
  structs : NameTable StructDef := {}
  deriving Repr

inductive Slot where
  | scope (id : Nat)
  | module (id : Nat)
  deriving DecidableEq, Repr

/-- All modules and scopes. Module 0 is the outermost; `active` are the open scopes, innermost
first; `used` are the names that were asked for; with `explicitLocals` a procedure keeps only
announced names to itself. -/
structure SymbolTable where
  modules : Array Module := #[{ name := "", parent := none }]
  scopes : Array Scope := #[]
  active : List Nat := []
  current : Nat := 0
  used : List String := []
  explicitLocals : Bool := false
  deriving Repr

namespace SymbolTable

def new (explicitLocals : Bool) : SymbolTable :=
  { explicitLocals }

/-! ## Scopes -/

def top? (t : SymbolTable) : Option Nat := t.active.head?

def topScope? (t : SymbolTable) : Option Scope :=
  t.top?.bind fun id => t.scopes[id]?

def modifyScope (t : SymbolTable) (id : Nat) (f : Scope → Scope) : SymbolTable :=
  { t with scopes := t.scopes.modify id f }

def modifyTop (t : SymbolTable) (f : Scope → Scope) : SymbolTable :=
  match t.top? with
  | some id => t.modifyScope id f
  | none => t

def nextScope (t : SymbolTable) : Nat := t.scopes.size

def openScope (t : SymbolTable) (kind : ScopeKind) : SymbolTable :=
  let parent := t.top?
  let id := t.scopes.size
  { t with scopes := t.scopes.push { kind, parent }, active := id :: t.active }

def closeScope (t : SymbolTable) (keep : Bool) : SymbolTable :=
  match t.active with
  | [] => t
  | id :: rest =>
    let t := { t with active := rest }
    if keep then t else t.modifyScope id fun s => { s with symbols := {} }

def parent? (t : SymbolTable) (id : Nat) : Option Nat :=
  t.scopes[id]?.bind (·.parent)

def outward (t : SymbolTable) : Nat → Nat → List Nat
  | 0, _ => []
  | n + 1, id =>
    id :: match t.parent? id with
      | some parent => t.outward n parent
      | none => []

/-- A scope and all those around it, innermost first. Numbers get smaller on the way out, so there
are at most as many as the number says. -/
def chain (t : SymbolTable) : Option Nat → List Nat
  | some id => t.outward (id + 1) id
  | none => []

def encloses (t : SymbolTable) (scope : Option Nat) (id : Nat) : Bool :=
  (t.chain scope).contains id

def innermost? (t : SymbolTable) (kind : ScopeKind) : Option Nat :=
  t.active.find? fun id => (t.scopes[id]?.map (·.kind)) == some kind

def loopCounter? (t : SymbolTable) (scope : Option Nat) : Option Int64 :=
  (t.chain scope).findSome? fun id =>
    match t.scopes[id]? with
    | some s => if s.kind == .pass then some s.counter else none
    | none => none

/-! ## Modules -/

def modifyModule (t : SymbolTable) (id : Nat) (f : Module → Module) : SymbolTable :=
  { t with modules := t.modules.modify id f }

/-- Opening of a module inside the current one, where its name has to be new. -/
def enterModule (t : SymbolTable) (name : String) : Except Fault SymbolTable :=
  let key := Text.upcase name
  match t.modules[t.current]? with
  | none => .ok t
  | some outer =>
    if outer.children.contains key then .error (.moduleDefined name)
    else
      let id := t.modules.size
      let parent := t.current
      let t := { t with modules := t.modules.push { name := key, parent := some parent } }
      let t := t.modifyModule parent fun m => { m with children := m.children.insert key id }
      .ok { t with current := id }

def leaveModule (t : SymbolTable) : SymbolTable :=
  match t.modules[t.current]?.bind (·.parent) with
  | some parent => { t with current := parent }
  | none => t

def moduleOutward (t : SymbolTable) : Nat → Nat → List Nat
  | 0, _ => []
  | n + 1, id =>
    id :: match t.modules[id]?.bind (·.parent) with
      | some parent => t.moduleOutward n parent
      | none => []

def moduleChain (t : SymbolTable) (id : Nat) : List Nat :=
  t.moduleOutward (id + 1) id

def findMacro? (t : SymbolTable) (name : String) : Option MacroDef :=
  (t.moduleChain t.current).findSome? fun id =>
    t.modules[id]?.bind fun m => m.macros.get? (Text.upcase name)

def findStruct? (t : SymbolTable) (name : String) : Option StructDef :=
  (t.moduleChain t.current).findSome? fun id =>
    t.modules[id]?.bind fun m => m.structs.get? (Text.upcase name)

def hasMacro (t : SymbolTable) (key : String) : Bool :=
  (t.modules[t.current]?.map fun m => m.macros.contains key).getD false

def hasStruct (t : SymbolTable) (key : String) : Bool :=
  (t.modules[t.current]?.map fun m => m.structs.contains key).getD false

def addMacro (t : SymbolTable) (d : MacroDef) : SymbolTable :=
  t.modifyModule t.current fun m => { m with macros := m.macros.insert d.name d }

def addStruct (t : SymbolTable) (d : StructDef) : SymbolTable :=
  t.modifyModule t.current fun m => { m with structs := m.structs.insert d.name d }

/-- The names of a module and those around it, each with a dot after it, outermost first. -/
def qualifier (t : SymbolTable) (id : Nat) : String :=
  let names := ((t.moduleChain id).filter (· != 0)).filterMap fun m => t.modules[m]?.map (·.name)
  String.join (names.reverse.map (· ++ "."))

end SymbolTable

end SpectrumAsm
