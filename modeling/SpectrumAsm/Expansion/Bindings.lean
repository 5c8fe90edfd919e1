/-
Replacing the parameters of a macro by arguments.

A parameter stands for an operand, an expression, or text inside a literal; one without an argument stands for
the empty text.
-/
import SpectrumAsm.Expansion.Placeholder
import SpectrumAsm.Statement

namespace SpectrumAsm

open SpectrumAsm.Expansion

namespace Expr

mutual
/-- The parameters an expression mentions, in literals too, from left to right. -/
def mentions : Expr → List String
  | param name => [name]
  | text raw => placeholders raw
  | unary _ arg => arg.mentions
  | binary _ left right => left.mentions ++ right.mentions
  | cond test yes no => test.mentions ++ yes.mentions ++ no.mentions
  | call _ args => mentionsAll args
  | _ => []
def mentionsAll : List Expr → List String
  | [] => []
  | e :: es => e.mentions ++ mentionsAll es
end

end Expr

namespace Stmt

def operandParams (s : Stmt) : List String :=
  s.operands.filterMap fun
    | .param name => some name
    | _ => none

/-- All parameters a line mentions: those that stand for operands first. -/
def mentions (s : Stmt) : List String :=
  s.operandParams ++ s.exprs.flatMap Expr.mentions

def hasParam (s : Stmt) : Bool :=
  !s.operandParams.isEmpty || s.exprs.any fun e => !e.params.isEmpty

end Stmt

structure Bindings where
  params : List String
  args : List Operand

namespace Bindings

def get (b : Bindings) (name : String) : Operand :=
  ((b.params.findIdx? (Text.sameName · name)).bind fun i => b.args[i]?).getD (.expr (.text ""))

/-- The argument as an expression. A register is read as a symbol of its name. -/
def exprOf (b : Bindings) (name : String) : Expr :=
  match b.get name with
  | .expr e | .memory e => e
  | other => .symbol (.parse other.shown)

def textOf (b : Bindings) (name : String) : String :=
  match b.get name with
  | .expr (.text s) => s
  | other => other.shown

def fillText (b : Bindings) (raw : String) : String :=
  (placeholders raw).foldl
    (fun text name => replaceAll text (placeholderText name) (b.textOf name)) raw

mutual
def refill (b : Bindings) : Expr → Expr
  | .text raw => .text (b.fillText raw)
  | .unary op arg => .unary op (b.refill arg)
  | .binary op left right => .binary op (b.refill left) (b.refill right)
  | .cond test yes no => .cond (b.refill test) (b.refill yes) (b.refill no)
  | .call name args => .call name (b.refillAll args)
  | e => e
def refillAll (b : Bindings) : List Expr → List Expr
  | [] => []
  | e :: es => b.refill e :: b.refillAll es
end

/-- An argument in the place of a parameter. A literal that is the whole argument is left as it
is. -/
def insert (b : Bindings) : Expr → Expr
  | .text raw => .text raw
  | e => b.refill e

mutual
def substitute (b : Bindings) : Expr → Expr
  | .param name => b.insert (b.exprOf name)
  | .text raw => .text (b.fillText raw)
  | .unary op arg => .unary op (b.substitute arg)
  | .binary op left right => .binary op (b.substitute left) (b.substitute right)
  | .cond test yes no => .cond (b.substitute test) (b.substitute yes) (b.substitute no)
  | .call name args => .call name (b.substituteAll args)
  | e => e
def substituteAll (b : Bindings) : List Expr → List Expr
  | [] => []
  | e :: es => b.substitute e :: b.substituteAll es
end

/-- An operand that is a parameter, or a parameter in parentheses that stands for a register. -/
def substituteOperand (b : Bindings) : Operand → Operand
  | .param name => b.get name
  | .memory (.param name) =>
    match b.get name with
    | .pair reg => .viaPair reg
    | .index reg => .indexed reg none
    | .reg8 .c => .portC
    | _ => .memory (.param name)
  | operand => operand

def substituteStmt (b : Bindings) (s : Stmt) : Stmt :=
  (s.mapOperands b.substituteOperand).mapExprs b.substitute

def substituteLines (b : Bindings) (lines : List SourceLine) : List SourceLine :=
  lines.map fun line => { line with stmt := line.stmt.map b.substituteStmt }

end Bindings

end SpectrumAsm
