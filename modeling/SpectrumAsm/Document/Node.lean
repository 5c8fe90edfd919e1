/-
The values of a document: scalars, lists, maps, and aliases that stand for a value with an anchor.
-/
import SpectrumAsm.Document.Scalar

namespace SpectrumAsm

/-- A value. An alias names another value by the number of its anchor. -/
inductive Document.Node where
  | alias (number : Nat)
  | scalar (s : Document.Scalar)
  | list (items : List Document.Node)
  | map (entries : List (Document.Node × Document.Node))

structure Document where
  root : Option Document.Node
  anchors : List (Nat × Document.Node)

namespace Document

def Node.empty : Node := .scalar .empty

def Node.scalar? : Node → Option Scalar
  | .scalar s => some s
  | _ => none

def follow (d : Document) : Node → Option Node
  | .alias number => d.anchors.lookup number
  | node => some node

def scalar? (d : Document) (node : Node) : Option Scalar := do (← d.follow node).scalar?

/-- The texts of a list of scalars. A plain scalar without text is a list without items. -/
def texts? (d : Document) (node : Node) : Option (List String) := do
  match ← d.follow node with
  | .list items => items.mapM fun item => (d.scalar? item).map (·.text)
  | .scalar s => if s.isPlain && s.text.isEmpty then some [] else none
  | _ => none

/-- The entries of the document's value, all keys being scalars. No value and a plain scalar without
text have no entries. -/
def entries? (d : Document) : Option (List (String × Node)) := do
  match d.root with
  | none => return []
  | some root =>
    match ← d.follow root with
    | .map entries => entries.mapM fun (key, v) => (d.scalar? key).map fun s => (s.text, v)
    | .scalar s => if s.isPlain && s.text.isEmpty then some [] else none
    | _ => none

end Document

end SpectrumAsm
