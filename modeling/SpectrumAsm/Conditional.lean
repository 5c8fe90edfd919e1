/-
Nested conditional sections of a source file. A line counts if every section around it was selected.
-/
namespace SpectrumAsm

/-- An open section: whether the lines around it count, whether it is selected, and whether its
alternative has begun. -/
structure Conditional where
  outer : Bool
  selected : Bool
  inElse : Bool := false
  deriving DecidableEq, Repr

namespace Conditional

def isActive : List Conditional → Bool
  | [] => true
  | c :: _ => c.outer && c.selected

def enter (stack : List Conditional) (selected : Bool) : List Conditional :=
  { outer := isActive stack, selected } :: stack

/-- The alternative of the innermost section; `none` if there is no section or it is there
already. -/
def alternate? : List Conditional → Option (List Conditional)
  | c :: rest =>
    if c.inElse then none else some ({ c with inElse := true, selected := !c.selected } :: rest)
  | [] => none

def leave? : List Conditional → Option (List Conditional)
  | _ :: rest => some rest
  | [] => none

end Conditional

end SpectrumAsm
