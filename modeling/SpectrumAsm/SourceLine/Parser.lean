/-
Reading source lines from tokens.

A line that cannot be read is reported and left out; the rest of the source is not affected.
-/
import SpectrumAsm.Keyword
import SpectrumAsm.Operand.Parser
import SpectrumAsm.Statement
import SpectrumAsm.Token.Lexer

namespace SpectrumAsm

open Parse

def takeRest : Parse (List Token) := modifyGet fun ts => (ts, [])

/-- The tokens up to the bracket that closes an open parenthesis; `depth` counts the brackets opened
on the way. -/
def takeGroup (depth : Nat) : List Token → Except Fault (List Token × List Token)
  | [] => .error .unexpectedEnd
  | t :: ts =>
    let inside (depth : Nat) := (takeGroup depth ts).map fun (inner, rest) => (t :: inner, rest)
    if t.kind.isOpening then inside (depth + 1)
    else if t.kind.isClosing then
      if depth == 0 then
        if t.kind == .punct .rparen then .ok ([], ts) else .error (unexpected t)
      else inside (depth - 1)
    else inside depth

def parseAfterComma : Parse (Option Expr) := do
  if ← accept .comma then return some (← parseExpr) else return none

def parseOptionalExpr : Parse (Option Expr) := do
  if (← get).isEmpty then return none else return some (← parseExpr)

def parseModelName : Parse String := do
  match ← next? with
  | some t =>
    match t.kind with
    | .ident s | .number s _ => return s
    | _ => throw (unexpected t)
  | none => throw .unexpectedEnd

def parseSymbol : Parse SymbolRef := do
  let rooted ← accept .colonColon
  return .ofDotted rooted (← ident)

def parsePragma? (k : Keyword) : Parse (Option Pragma) := do
  match k with
  | .org => return some (.org (← parseExpr))
  | .ent => return some (.ent (← parseExpr))
  | .xent => return some (.xent (← parseExpr))
  | .disp => return some (.disp (← parseExpr))
  | .equ => return some (.equ (← parseExpr))
  | .var => return some (.var (← parseExpr))
  | .skip =>
    let target ← parseExpr
    return some (.skip target (← parseAfterComma))
  | .defb => return some (.defb (← parseExprList))
  | .defw => return some (.defw (← parseExprList))
  | .defm => return some (.defm (← parseExpr))
  | .defn => return some (.defn (← parseExpr))
  | .defc => return some (.defc (← parseExpr))
  | .defh => return some (.defh (← parseExpr))
  | .defs => return some (.defs (← parseExpr))
  | .fillb =>
    let count ← parseExpr
    expect .comma
    return some (.fillb count (← parseExpr))
  | .fillw =>
    let count ← parseExpr
    expect .comma
    return some (.fillw count (← parseExpr))
  | .model => return some (.model (← parseModelName))
  | .align => return some (.align (← parseOptionalExpr))
  | .trace => return some (.trace false (← parseExprList))
  | .tracehex => return some (.trace true (← parseExprList))
  | .rndseed => return some (.rndseed (← parseOptionalExpr))
  | .defg => return some (.defg (← parseExpr))
  | .defgx => return some (.defgx (← parseExpr))
  | .error => return some (.error (← parseExpr))
  | .includebin =>
    let file ← parseExpr
    match ← parseAfterComma with
    | some offset => return some (.includebin file (some offset) (← parseAfterComma))
    | none => return some (.includebin file none none)
  | _ => return none

def parseNames : Nat → Parse (List String)
  | 0 => throw .unexpectedEnd
  | n + 1 => do
    let name ← ident
    if ← accept .comma then return name :: (← parseNames n) else return [name]

def parseNameList : Parse (List String) := do
  parseNames ((← get).length + 1)

def parseParams : Parse (List String) := do
  if ← accept .lparen then
    let names ← if ← check .rparen then pure [] else parseNameList
    expect .rparen
    return names
  else return []

def isKeyword (k : Keyword) : Option TokenKind → Bool
  | some (.ident name) => Keyword.parse? name == some k
  | _ => false

def expectKeyword (k : Keyword) : Parse Unit := do
  match ← get with
  | t :: ts => if isKeyword k (some t.kind) then set ts else throw (unexpected t)
  | [] => throw .unexpectedEnd

def parseFor : Parse Statement := do
  let var ← ident
  unless ← accept .colonEq do expect .eq
  let first ← parseExpr
  expectKeyword .upTo
  let last ← parseExpr
  if isKeyword .stepBy (← peek?) then
    let _ ← next?
    return .forEach var first last (some (← parseExpr))
  else return .forEach var first last none

/-- The statement that a keyword introduces. The two words of a counting loop introduce none. -/
def parseStatement (k : Keyword) : Parse Statement := do
  match k with
  | .ifTrue => return .ifTrue (← parseExpr)
  | .ifUsed => return .ifUsed (← parseSymbol)
  | .ifUnused => return .ifUnused (← parseSymbol)
  | .elseIf => return .elseIf (← parseExpr)
  | .otherwise => return .otherwise
  | .endIf => return .endIf
  | .loop => return .loop (← parseExpr)
  | .endLoop => return .endLoop
  | .whileTrue => return .whileTrue (← parseExpr)
  | .endWhile => return .endWhile
  | .repeatBody => return .repeatBody
  | .untilTrue => return .untilTrue (← parseExpr)
  | .forEach => parseFor
  | .endFor => return .endFor
  | .breakLoop => return .breakLoop
  | .continueLoop => return .continueLoop
  | .macroDef => return .macroDef (← parseParams)
  | .endMacro => return .endMacro
  | .proc => return .proc
  | .endProc => return .endProc
  | .locals => return .locals (← if (← get).isEmpty then pure [] else parseNameList)
  | .moduleDef =>
    match ← peek? with
    | some (.ident _) => return .moduleDef (some (← ident))
    | _ => return .moduleDef none
  | .endModule => return .endModule
  | .structDef => return .structDef
  | .endStruct => return .endStruct
  | .upTo => throw (.unexpectedToken "to")
  | _ => throw (.unexpectedToken "step")

def parseWord (word : Word) : Parse Stmt := do
  match word with
  | .mnemonic m => return .op m (← ofExcept (Operand.parseList (← takeRest)))
  | .keyword k =>
    let stmt ← match ← parsePragma? k with
      | some pragma => pure (.pragma pragma)
      | none => pure (.statement (← parseStatement k))
    expectEnd
    return stmt

def parseDirective (name : String) : Parse Stmt := do
  let directive : Directive ← match name with
    | "define" => pure (.define (← ident))
    | "undef" => pure (.undef (← ident))
    | "ifdef" => pure (.ifDef (← ident))
    | "ifndef" => pure (.ifNotDef (← ident))
    | "if" => pure (.ifTrue (← parseExpr))
    | "ifmod" => pure (.ifModel (← parseModelName))
    | "ifnmod" => pure (.ifNotModel (← parseModelName))
    | "else" => pure .otherwise
    | "endif" => pure .endIf
    | "include" => do
      match ← next? with
      | some t =>
        match t.kind with
        | .text path => pure (.includeFile path)
        | _ => throw (unexpected t)
      | none => throw .unexpectedEnd
    | other => throw (.unexpectedToken ("#" ++ other))
  expectEnd
  return .directive directive

def parseInvocation (name : String) : Parse Stmt := do
  expect .lparen
  let (inner, rest) ← ofExcept (takeGroup 0 (← get))
  set rest
  expectEnd
  return .invoke name (← ofExcept (Operand.parseArgs inner))

def parseField (name : Option String) : Parse Stmt := do
  match ← next? with
  | none => throw .unexpectedEnd
  | some t =>
    match t.kind with
    | .ident word =>
      match Word.parse? word with
      | some (.keyword k) =>
        match ← parsePragma? k with
        | some pragma =>
          expectEnd
          return .field name pragma
        | none => throw (unexpected t)
      | _ => throw (unexpected t)
    | _ => throw (unexpected t)

/-- What follows the label of a line: nothing, a statement, or an invocation. -/
def parseLabelled (label : String) : Parse (Option String × Option Stmt) := do
  match ← next? with
  | none => return (some label, none)
  | some t =>
    match t.kind with
    | .ident name =>
      match Word.parse? name with
      | some word => return (some label, some (← parseWord word))
      | none =>
        if ← check .lparen then return (some label, some (← parseInvocation name))
        else throw (unexpected t)
    | _ => throw (unexpected t)

/-- A line that starts with a name: a label with a colon, a statement, an invocation, an assignment,
a field override, or a label without colon, told apart by what follows the name. -/
def parseNamed (name : String) : Parse (Option String × Option Stmt) := do
  if ← accept .colon then parseLabelled name
  else
    match Word.parse? name with
    | some word => return (none, some (← parseWord word))
    | none =>
      match ← peek? with
      | some (.punct .lparen) => return (none, some (← parseInvocation name))
      | some (.punct .eq) | some (.punct .colonEq) =>
        let _ ← next?
        let e ← parseExpr
        expectEnd
        return (some name, some (.pragma (.var e)))
      | some (.punct .arrow) =>
        let _ ← next?
        return (none, some (← parseField (some name)))
      | none => return (some name, none)
      | _ => parseLabelled name

def parseLine : Parse (Option String × Option Stmt) := do
  match ← next? with
  | none => return (none, none)
  | some t =>
    match t.kind with
    | .directive name => return (none, some (← parseDirective name))
    | .punct .arrow => return (none, some (← parseField none))
    | .ident name => parseNamed name
    | _ => throw (unexpected t)

namespace SourceLine

def commentOf (ts : List Token) : Option String :=
  ts.findSome? fun t =>
    match t.kind with
    | .comment text => some text
    | _ => none

def badToken? (ts : List Token) : Option Token :=
  ts.find? fun t =>
    match t.kind with
    | .bad _ => true
    | _ => false

def ofTokens (pos : Position) (ts : List Token) : Except Fault (Option SourceLine) :=
  match badToken? ts with
  | some t => .error (unexpected t)
  | none => do
    let (label, stmt) ← parseLine.run' (ts.filter fun t => !t.kind.isComment)
    let comment := commentOf ts
    if label.isNone && stmt.isNone && comment.isNone then return none
    return some { pos, label, stmt, comment }

/-- The lines of a source text from line `n` on, and the numbers of the lines that cannot be
read. -/
def ofTokenLines (file n : Nat) : List (List Token) → List SourceLine × List (Nat × Fault)
  | [] => ([], [])
  | ts :: rest =>
    let (lines, faults) := ofTokenLines file (n + 1) rest
    match ofTokens ⟨file, n⟩ ts with
    | .ok (some line) => (line :: lines, faults)
    | .ok none => (lines, faults)
    | .error fault => (lines, (n, fault) :: faults)

def ofSource (file : Nat) (source : String) : List SourceLine × List (Nat × Fault) :=
  ofTokenLines file 0 (Lexer.lexSource source)

end SourceLine

end SpectrumAsm
