/-
Expressions of the source language and their text. The text puts every operation in parentheses, so
it can be read back without regard to how tightly operators bind.
-/
import SpectrumAsm.Real.Shortest
import SpectrumAsm.Text

namespace SpectrumAsm

/-- Splitting a list of characters at the dots. There is always at least one part. -/
def splitDots : List Char → List (List Char)
  | [] => [[]]
  | c :: cs =>
    match splitDots cs with
    | [] => [[c]]
    | part :: parts => if c == '.' then [] :: part :: parts else (c :: part) :: parts

/-- A name of a symbol: dotted parts in capital letters, `rooted` if it starts at the outermost
module. -/
structure SymbolRef where
  path : List String
  rooted : Bool
  deriving DecidableEq, Repr

namespace SymbolRef

def ofDotted (rooted : Bool) (name : String) : SymbolRef :=
  ⟨(splitDots name.toList).map fun part => Text.upcase (String.ofList part), rooted⟩

/-- The reference a text writes; two colons in front mark it as rooted. -/
def parse (text : String) : SymbolRef :=
  match text.toList with
  | ':' :: ':' :: rest => ofDotted true (String.ofList rest)
  | _ => ofDotted false text

def joined (s : SymbolRef) : String := ".".intercalate s.path

def text (s : SymbolRef) : String := if s.rooted then "::" ++ s.joined else s.joined

end SymbolRef

inductive UnaryOp where
  | pos | neg | not | inv
  deriving DecidableEq, Repr

inductive BinaryOp where
  | add | sub | mul | div | mod | and | or | xor | shl | shr | eq | ne | lt | le | gt | ge
  deriving DecidableEq, Repr

def UnaryOp.symbol : UnaryOp → String
  | pos => "+" | neg => "-" | not => "!" | inv => "~"

def BinaryOp.symbol : BinaryOp → String
  | add => "+" | sub => "-" | mul => "*" | div => "/" | mod => "%"
  | and => "&" | or => "|" | xor => "^" | shl => "<<" | shr => ">>"
  | eq => "==" | ne => "!=" | lt => "<" | le => "<=" | gt => ">" | ge => ">="

def BinaryOp.all : List BinaryOp :=
  [add, sub, mul, div, mod, and, or, xor, shl, shr, eq, ne, lt, le, gt, ge]

inductive Expr where
  | int (value : Int64)
  | real (value : Float)
  | bool (value : Bool)
  | text (raw : String)
  | symbol (ref : SymbolRef)
  | address
  | counter
  | param (name : String)
  | unary (op : UnaryOp) (arg : Expr)
  | binary (op : BinaryOp) (left right : Expr)
  | cond (test yes no : Expr)
  | call (name : String) (args : List Expr)
  deriving Repr

namespace Expr

mutual
def shown : Expr → String
  | int v => toString v.toInt
  | real v => Real.text v
  | bool v => if v then "true" else "false"
  | text raw => "\x22" ++ raw ++ "\x22"
  | symbol ref => ref.text
  | address => "$"
  | counter => "$cnt"
  | param name => "\x7b\x7b" ++ name ++ "\x7d\x7d"
  | unary op arg => op.symbol ++ arg.shown
  | binary op left right => "(" ++ left.shown ++ " " ++ op.symbol ++ " " ++ right.shown ++ ")"
  | cond test yes no => "(" ++ test.shown ++ " ? " ++ yes.shown ++ " : " ++ no.shown ++ ")"
  | call name args => name ++ "(" ++ ", ".intercalate (shownAll args) ++ ")"
def shownAll : List Expr → List String
  | [] => []
  | e :: es => e.shown :: shownAll es
end

mutual
/-- The symbols of an expression from left to right, with repetitions. -/
def symbols : Expr → List SymbolRef
  | symbol ref => [ref]
  | unary _ arg => arg.symbols
  | binary _ left right => left.symbols ++ right.symbols
  | cond test yes no => test.symbols ++ yes.symbols ++ no.symbols
  | call _ args => symbolsAll args
  | _ => []
def symbolsAll : List Expr → List SymbolRef
  | [] => []
  | e :: es => e.symbols ++ symbolsAll es
end

mutual
def params : Expr → List String
  | param name => [name]
  | unary _ arg => arg.params
  | binary _ left right => left.params ++ right.params
  | cond test yes no => test.params ++ yes.params ++ no.params
  | call _ args => paramsAll args
  | _ => []
def paramsAll : List Expr → List String
  | [] => []
  | e :: es => e.params ++ paramsAll es
end

end Expr

end SpectrumAsm
