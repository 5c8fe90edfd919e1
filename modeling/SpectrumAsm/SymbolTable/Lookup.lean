/-
Finding symbols.

A rooted name starts at the outermost module. Any other name is first sought, dots and all, in the open scopes
from the innermost outwards and then in the modules around. In a module a dotted name may lead into an inner
module.
-/
import SpectrumAsm.SymbolTable

namespace SpectrumAsm.SymbolTable

/-- The symbol a path leads to from a module: a symbol of that dotted name, or else one of the inner
module that the first part names. -/
def resolveIn (t : SymbolTable) (id : Nat) : List String → Option Symbol
  | [] => t.modules[id]?.bind fun m => m.symbols.get? ""
  | part :: rest =>
    match t.modules[id]? with
    | none => none
    | some m =>
      match m.symbols.get? (".".intercalate (part :: rest)) with
      | some s => some s
      | none =>
        if rest.isEmpty then none
        else (m.children.get? part).bind fun child => t.resolveIn child rest

def lookupScopes (t : SymbolTable) (scope : Option Nat) (name : String) : Option Symbol :=
  (t.chain scope).findSome? fun id => t.scopes[id]?.bind fun s => s.symbols.get? name

def lookup (t : SymbolTable) (ref : SymbolRef) (scope : Option Nat) (module : Nat) :
    Option Symbol :=
  if ref.rooted then t.resolveIn 0 ref.path
  else
    match t.lookupScopes scope ref.joined with
    | some s => some s
    | none => (t.moduleChain module).findSome? fun id => t.resolveIn id ref.path

def lookupHere (t : SymbolTable) (ref : SymbolRef) : Option Symbol :=
  t.lookup ref t.top? t.current

def isVisible (t : SymbolTable) (name : String) : Bool :=
  (t.lookupHere (.parse name)).isSome

def markUsed (t : SymbolTable) (name : String) : SymbolTable :=
  if t.used.contains name then t else { t with used := name :: t.used }

def isUsed (t : SymbolTable) (ref : SymbolRef) : Bool :=
  t.used.contains ref.joined

end SpectrumAsm.SymbolTable
