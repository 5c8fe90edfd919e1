/-
The words of a document: brackets and marks, names of anchors and tags, scalars, and the starts and
ends that indentation stands for.
-/
namespace SpectrumAsm.Document

inductive Style where
  | plain
  | singleQuoted
  | doubleQuoted
  | literal
  | folded
  deriving DecidableEq, Repr

abbrev Octets := List UInt8

inductive Token where
  | version (major minor : Nat)
  | handle (name : String) (stem : Octets)
  | documentStart
  | documentEnd
  | textEnd
  | listStart
  | mapStart
  /-- what started by indentation ends -/
  | blockEnd
  | openList
  | closeList
  | openMap
  | closeMap
  | dash
  | comma
  | key
  | value
  | alias (name : String)
  | anchor (name : String)
  | tag (handle : String) (rest : Octets)
  | scalar (style : Style) (text : String)
  deriving DecidableEq, Repr

end SpectrumAsm.Document
