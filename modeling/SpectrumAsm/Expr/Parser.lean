/-
Reading expressions from tokens, by binding strength.

The binary operators form eight tiers from `|` to `*`, each associating to the left. A conditional binds more
loosely and associates to the right, a sign binds more tightly. Between two tokens the recursion never goes
deeper than the tiers, so a budget of sixteen steps for each token is enough.
-/
import SpectrumAsm.Expr
import SpectrumAsm.Fault
import SpectrumAsm.Text.Message
import SpectrumAsm.Token

namespace SpectrumAsm

/-- Reading from the front of a token list that holds no comments. -/
abbrev Parse := StateT (List Token) (Except Fault)

namespace Parse

def unexpected (t : Token) : Fault := .unexpectedToken t.kind.shown

def next? : Parse (Option Token) := do
  match ← get with
  | [] => return none
  | t :: ts =>
    set ts
    return some t

def peek? : Parse (Option TokenKind) := do
  return (← get).head?.map (·.kind)

def accept (p : Punct) : Parse Bool := do
  match ← get with
  | t :: ts =>
    if t.kind == .punct p then
      set ts
      return true
    else return false
  | [] => return false

/-- A punctuation mark is taken if it has the meaning that is asked for. -/
def acceptBy {α : Type} (meaning : Punct → Option α) : Parse (Option α) := do
  match ← get with
  | ⟨_, .punct p⟩ :: ts =>
    match meaning p with
    | some a =>
      set ts
      return some a
    | none => return none
  | _ => return none

def check (p : Punct) : Parse Bool := do
  return (← peek?) == some (.punct p)

def expect (p : Punct) : Parse Unit := do
  match ← get with
  | t :: ts => if t.kind == .punct p then set ts else throw (unexpected t)
  | [] => throw .unexpectedEnd

def expectEnd : Parse Unit := do
  match ← get with
  | t :: _ => throw (unexpected t)
  | [] => return

def ident : Parse String := do
  match ← next? with
  | some t =>
    match t.kind with
    | .ident name => return name
    | _ => throw (unexpected t)
  | none => throw .unexpectedEnd

end Parse

open Parse

def BinaryOp.tiers : Nat := 8

def BinaryOp.ofPunct? : Nat → Punct → Option BinaryOp
  | 0, .pipe => some .or
  | 1, .caret => some .xor
  | 2, .amp => some .and
  | 3, .eqEq => some .eq
  | 3, .notEq => some .ne
  | 4, .le => some .le
  | 4, .lt => some .lt
  | 4, .ge => some .ge
  | 4, .gt => some .gt
  | 5, .shl => some .shl
  | 5, .shr => some .shr
  | 6, .plus => some .add
  | 6, .minus => some .sub
  | 7, .star => some .mul
  | 7, .slash => some .div
  | 7, .percent => some .mod
  | _, _ => none

def UnaryOp.ofPunct? : Punct → Option UnaryOp
  | .plus => some .pos
  | .minus => some .neg
  | .bang => some .not
  | .tilde => some .inv
  | _ => none

def charValue (raw : String) : Int64 :=
  match Text.messageBytes raw with
  | b :: _ => Int64.ofNat b.toNat
  | [] => 0

/-- Names that no function can have. -/
def isReserved (name : String) : Bool :=
  Text.sameName name "true" || Text.sameName name "false" || name.toList.contains '.'

def Expr.ofName (name : String) : Expr :=
  if Text.sameName name "true" then .bool true
  else if Text.sameName name "false" then .bool false
  else .symbol (.ofDotted false name)

/-- The expression that a single token is. -/
def TokenKind.word? : TokenKind → Option Expr
  | number _ value => some (.int value)
  | real _ value => some (.real value)
  | text raw => some (.text raw)
  | char raw => some (.int (charValue raw))
  | punct .dollar | punct .period => some .address
  | counter => some .counter
  | param name => some (.param name)
  | ident name => some (.ofName name)
  | _ => none

mutual
/-- An expression: `test ? yes : no` or a chain of binary operators. -/
def parseExprWith : Nat → Parse Expr
  | 0 => throw .unexpectedEnd
  | n + 1 => do
    let test ← parseTier n 0
    if ← accept .question then
      let yes ← parseExprWith n
      expect .colon
      let no ← parseExprWith n
      return .cond test yes no
    else return test
def parseTier : Nat → Nat → Parse Expr
  | 0, _ => throw .unexpectedEnd
  | n + 1, tier => do
    if tier < BinaryOp.tiers then
      let left ← parseTier n (tier + 1)
      parseMore n tier left
    else parseUnary n
def parseMore : Nat → Nat → Expr → Parse Expr
  | 0, _, _ => throw .unexpectedEnd
  | n + 1, tier, left => do
    match ← acceptBy (BinaryOp.ofPunct? tier) with
    | some op =>
      let right ← parseTier n (tier + 1)
      parseMore n tier (.binary op left right)
    | none => return left
def parseUnary : Nat → Parse Expr
  | 0 => throw .unexpectedEnd
  | n + 1 => do
    match ← acceptBy UnaryOp.ofPunct? with
    | some op => return .unary op (← parseUnary n)
    | none => parsePrimary n
def parsePrimary : Nat → Parse Expr
  | 0 => throw .unexpectedEnd
  | n + 1 => do
    match ← next? with
    | none => throw .unexpectedEnd
    | some t =>
      match t.kind with
      | .punct .lparen =>
        let inner ← parseExprWith n
        expect .rparen
        return inner
      | .punct .lbracket =>
        let inner ← parseExprWith n
        expect .rbracket
        return inner
      | .punct .colonColon => return .symbol (.ofDotted true (← ident))
      | .ident name =>
        if isReserved name then return .ofName name
        else if ← accept .lparen then
          let args ← if ← check .rparen then pure [] else parseArgs n
          expect .rparen
          return .call (Text.downcase name) args
        else return .ofName name
      | kind =>
        match kind.word? with
        | some e => return e
        | none => throw (unexpected t)
def parseArgs : Nat → Parse (List Expr)
  | 0 => throw .unexpectedEnd
  | n + 1 => do
    let e ← parseExprWith n
    if ← accept .comma then return e :: (← parseArgs n) else return [e]
end

def parseExpr : Parse Expr := do
  parseExprWith (16 * ((← get).length + 1))

def parseWholeExpr (ts : List Token) : Except Fault Expr :=
  (do
    let e ← parseExpr
    expectEnd
    return e : Parse Expr).run' ts

/-- Whole lists of expressions: nothing at the end of the line, else expressions between commas. -/
def parseExprs : Nat → Parse (List Expr)
  | 0 => throw .unexpectedEnd
  | n + 1 => do
    let e ← parseExpr
    if ← accept .comma then return e :: (← parseExprs n) else return [e]

def parseExprList : Parse (List Expr) := do
  match ← get with
  | [] => return []
  | ts => parseExprs (ts.length + 1)

end SpectrumAsm
