/-
Reading operands from tokens. Commas outside all brackets separate operands; a pair of parentheses
around a whole operand makes it an indirection.
-/
import SpectrumAsm.Expr.Parser
import SpectrumAsm.Operand

namespace SpectrumAsm

open SpectrumAsm.Cpu

def TokenKind.isOpening : TokenKind → Bool
  | punct .lparen | punct .lbracket => true
  | _ => false

def TokenKind.isClosing : TokenKind → Bool
  | punct .rparen | punct .rbracket => true
  | _ => false

namespace Operand

/-- The parts between the commas at depth zero; `depth` is that of the first token. -/
def splitAt (depth : Int) : List Token → List (List Token)
  | [] => [[]]
  | t :: ts =>
    if t.kind == .punct .comma && depth == 0 then [] :: splitAt depth ts
    else
      let depth :=
        if t.kind.isOpening then depth + 1 else if t.kind.isClosing then depth - 1 else depth
      match splitAt depth ts with
      | part :: parts => (t :: part) :: parts
      | [] => [[t]]

def split (ts : List Token) : List (List Token) := splitAt 0 ts

def closesAtEnd (depth : Nat) : List Token → Bool
  | [] => false
  | t :: ts =>
    if t.kind.isOpening then closesAtEnd (depth + 1) ts
    else if t.kind.isClosing then
      if depth ≤ 1 then ts.isEmpty else closesAtEnd (depth - 1) ts
    else closesAtEnd depth ts

def parseIndirect (inner : List Token) : Except Fault Operand :=
  let plain : Except Fault Operand := (parseWholeExpr inner).map .memory
  match inner with
  | [⟨_, .ident name⟩] =>
    if Text.sameName name "c" then .ok .portC
    else
      match Pair.parse name, Index.parse name with
      | .ok reg, _ => .ok (.viaPair reg)
      | _, .ok reg => .ok (.indexed reg none)
      | _, _ => plain
  | ⟨_, .ident name⟩ :: sign :: rest =>
    match Index.parse name with
    | .ok reg =>
      match sign.kind with
      | .punct .plus => (parseWholeExpr rest).map fun e => .indexed reg (some (.plus, e))
      | .punct .minus => (parseWholeExpr rest).map fun e => .indexed reg (some (.minus, e))
      | _ => .error (Parse.unexpected sign)
    | .error _ => plain
  | _ => plain

/-- An operand that is no lone name. -/
def parsePlain (ts : List Token) : Except Fault Operand :=
  match ts with
  | first :: rest =>
    if first.kind == .punct .lparen && closesAtEnd 0 ts then parseIndirect rest.dropLast
    else (parseWholeExpr ts).map .expr
  | [] => .error .unexpectedEnd

def parse (ts : List Token) : Except Fault Operand :=
  match ts with
  | [⟨_, .ident name⟩] =>
    match ofName? name with
    | some operand => .ok operand
    | none => parsePlain ts
  | [⟨_, .param name⟩] => .ok (.param name)
  | _ => parsePlain ts

def parseList (ts : List Token) : Except Fault (List Operand) :=
  if ts.isEmpty then .ok [] else (split ts).mapM parse

/-- The arguments of an invocation; an empty one stands for the empty text. -/
def parseArgs (ts : List Token) : Except Fault (List Operand) :=
  if ts.isEmpty then .ok []
  else (split ts).mapM fun part => if part.isEmpty then .ok (.expr (.text "")) else parse part

end Operand

end SpectrumAsm
