/-
Walking through the lines of a program.

`walkLines` goes through lines from top to bottom; a block takes the lines up to its closing line and walks
them as its kind demands. Bodies are shorter than the lines they are taken from, loops are bounded by the
settings, and `walkDepth` says how many expansions may still be open inside one another.
-/
import SpectrumAsm.Assembly.Block
import SpectrumAsm.Assembly.Loop
import SpectrumAsm.Assembly.Struct
import SpectrumAsm.Expansion.Bindings

namespace SpectrumAsm

abbrev LineWalker := List SourceLine → Walk Unit

/-! ## Macros -/

def repeatedParam? (seen : List String) : List String → Option String
  | [] => none
  | p :: ps => if seen.any (Text.sameName p) then some p else repeatedParam? (p :: seen) ps

/-- The parameters that lines mention but a macro does not have, with their lines. -/
def unknownParams (params : List String) (body : List SourceLine) : List (String × Position) :=
  body.flatMap fun line =>
    match line.stmt with
    | some s => (s.mentions.filter fun p => !params.any (Text.sameName · p)).map (·, line.pos)
    | none => []

def SourceLine.beginsMacro (line : SourceLine) : Bool := line.opens == some .macroDef

def defineMacro (name : Option String) (params : List String) (body : List SourceLine)
    (close : SourceLine) : Step Unit := do
  if body.any (·.beginsMacro) then throw .nestedMacro
  let some name := name | throw .macroName
  if let some param := repeatedParam? [] params then throw (.duplicateMacroArg param)
  let key := Text.upcase name
  if (← get).symbols.hasMacro key then throw (.macroDefined name)
  match unknownParams params body with
  | [] =>
    let d : MacroDef := { name := key, params, body, endLabel := close.label }
    modify fun a => { a with symbols := a.symbols.addMacro d }
  | unknown =>
    modify fun a => unknown.foldl (fun a (param, pos) => a.reportAt (.unknownMacroArg param) pos) a

def Assembly.openExpansion (a : Assembly) : Assembly :=
  { a.openScope .expansion with macroDepth := a.macroDepth + 1 }

/-- The lines of an expansion with scope `id` have been walked. -/
def Assembly.closeExpansion (a : Assembly) (id : Nat) (d : MacroDef) (pos : Position) : Assembly :=
  let a := (a.bindEndLabel d.endLabel pos).resolveScope id
  { a.closeScope with macroDepth := a.macroDepth - 1 }

def runExpansion (walk : LineWalker) (pos : Position) (d : MacroDef) (args : List Operand) :
    Walk Unit := do
  let id := (← get).symbols.nextScope
  modify fun a => a.openExpansion
  walk (Bindings.substituteLines ⟨d.params, args⟩ d.body)
  modify fun a => a.closeExpansion id d pos

def expandMacro (walk : Option LineWalker) (pos : Position) (d : MacroDef) (args : List Operand) :
    Step Unit := do
  if args.length > d.params.length then
    throw (.tooManyMacroArgs d.name d.params.length args.length)
  let a ← get
  let limit := a.setup.options.maxMacroDepth
  if a.macroDepth ≥ limit then throw (.macroDepth d.name limit)
  match walk with
  | some walk => runExpansion walk pos d args
  | none => throw (.macroDepth d.name limit)

def invoke (walk : Option LineWalker) (pos : Position) (name : String) (args : List Operand) :
    Step Unit := do
  let symbols := (← get).symbols
  match symbols.findMacro? name with
  | some d => expandMacro walk pos d args
  | none =>
    match symbols.findStruct? name with
    | some d =>
      if args.isEmpty then invokeStruct d else throw (.structArguments d.name)
    | none => throw (.unknownMacro name)

/-! ## Single lines -/

def Assembly.isInScope (a : Assembly) (kind : ScopeKind) : Bool :=
  (a.symbols.topScope?.map (·.kind)) == some kind

def leavePass (exit : LoopExit) (fault : Fault) : Step Unit := do
  unless (← get).isInScope .pass do throw fault
  modify fun a => { a with symbols := a.symbols.modifyTop fun s => { s with exit := some exit } }

def declareLocal (name : String) : Step Unit := do
  let key := Text.upcase name
  let declared := ((← get).symbols.topScope?.map (·.locals)).getD []
  if declared.contains key then throw (.localDefined name)
  modify fun a => { a with symbols := a.symbols.modifyTop fun s =>
    { s with locals := key :: s.locals } }

def runStatement : Statement → Step Unit
  | .breakLoop => leavePass .endLoop .breakOutsideLoop
  | .continueLoop => leavePass .nextPass .continueOutsideLoop
  | .locals names => do
    unless (← get).isInScope .proc do throw .localOutside
    names.forM declareLocal
  | _ => return ()

def Assembly.paramFault (a : Assembly) (s : Stmt) : Fault :=
  match s with
  | .invoke _ _ => if a.macroDepth > 0 then .macroParamInArgument else .macroParamOutside
  | _ => .macroParamOutside

def runStmt (walk : Option LineWalker) (line : SourceLine) : Stmt → Walk Unit
  | .pragma p => do
    if p.setsLabel then
      let label ← modifyGet fun a => a.takeLabel line
      modify fun a => a.flushLabel
      reporting (runPragma label p)
    else
      modify fun a => a.bindLineLabel line
      reporting (runPragma none p)
  | .op m operands => do
    modify fun a => (a.bindLineLabel line).recordLine line.pos
    reporting (emitOperation m operands)
  | .invoke name args => do
    modify fun a => (a.bindLineLabel line).recordLine line.pos
    reporting (invoke walk line.pos name args)
  | .field name p => do
    modify fun a => a.bindLineLabel line
    reporting (overrideField name p)
  | .statement s => do
    modify fun a => a.bindLineLabel line
    reporting (runStatement s)
  | .directive _ => return ()

def Stmt.keepsInstance : Stmt → Bool
  | .field _ _ => true
  | _ => false

def walkSingle (walk : Option LineWalker) (line : SourceLine) : Walk Unit := do
  match line.stmt with
  | none =>
    match line.label with
    | some label => modify fun a => { a.flushLabel with hanging := some (label, line.pos) }
    | none => return ()
  | some s =>
    unless s.keepsInstance do modify fun a => { a with opened := none }
    if s.hasParam then modify fun a => a.report (a.paramFault s)
    else runStmt walk line s

/-! ## Blocks -/

/-- Faults of the sections of a choice, given what heads the section before. The state moves from
section to section. -/
def checkSections : Statement → List Section → Walk Bool
  | _, [] => return true
  | before, s :: sections => do
    modify fun a => { a with pos := s.line.pos }
    let late := match before with
      | .otherwise => true
      | _ => false
    if late then report (.sectionAfterElse s.title)
    let labelled := s.line.label.isSome
    if labelled then report (.sectionLabel s.title)
    let rest ← checkSections s.header sections
    return !late && !labelled && rest

def isChosen : Statement → Step Bool
  | .ifTrue e | .elseIf e => evalTruth e
  | .ifUsed s => return (← get).symbols.isUsed s
  | .ifUnused s => return !(← get).symbols.isUsed s
  | _ => return true

/-- Lines are picked if their condition holds, and otherwise later ones may be. A fault in the condition ends
the choice. -/
def pickIf (header : Statement) (lines : List SourceLine) (later : Walk (Option (List SourceLine))) :
    Walk (Option (List SourceLine)) := do
  match ← (isChosen header).run with
  | .ok true => return some lines
  | .ok false => later
  | .error fault =>
    report fault
    return none

/-- The lines of the first section that is chosen. -/
def pickSection : List Section → Walk (Option (List SourceLine))
  | [] => return none
  | s :: sections => do
    modify fun a => { a with pos := s.line.pos }
    pickIf s.header s.body (pickSection sections)

def pickLines (header : Statement) (body : List SourceLine) : Walk (Option (List SourceLine)) := do
  let (first, sections) := cutSections 0 body
  if ← checkSections header sections then pickIf header first (pickSection sections)
  else return none

def walkChoice (walk : LineWalker) (header : Statement) (body : List SourceLine) : Walk Unit := do
  match ← pickLines header body with
  | some lines => walk lines
  | none => return ()

def walkProc (walk : LineWalker) (body : List SourceLine) (close : SourceLine) : Walk Unit := do
  let id := (← get).symbols.nextScope
  modify fun a => a.openScope .proc
  walk body
  modify fun a => ((a.bindEndLabel close.label close.pos).resolveScope id).closeScope

def walkModule (walk : LineWalker) (name : Option String) (body : List SourceLine)
    (close : SourceLine) : Walk Unit := do
  match name with
  | none => report .moduleName
  | some name =>
    match (← get).symbols.enterModule name with
    | .error fault => report fault
    | .ok symbols =>
      modify fun a => { a with symbols }
      walk body
      modify fun a =>
        let a := a.bindEndLabel close.label close.pos
        { a with symbols := a.symbols.leaveModule }

/-- A block. Definitions take the label of their line as a name; other blocks define it. -/
def walkBlock (walk : LineWalker) (line : SourceLine) (s : Statement) (body : List SourceLine)
    (close : SourceLine) : Walk Unit := do
  match s with
  | .macroDef params =>
    let name ← modifyGet fun a => a.takeLabel line
    reporting (defineMacro name params body close)
  | .structDef =>
    let name ← modifyGet fun a => a.takeLabel line
    reporting (defineStruct name body close)
  | .moduleDef arg =>
    let name ← match line.label.or arg with
      | some name => pure (some name)
      | none => modifyGet fun a => a.takeLabel line
    modify fun a => a.flushLabel
    walkModule walk name body close
  | s =>
    modify fun a => a.bindLineLabel line
    match s with
    | .ifTrue _ | .ifUsed _ | .ifUnused _ => walkChoice walk s body
    | .loop count => countedLoop count (walk body) close
    | .whileTrue condition => whileLoop condition (walk body) close
    | .repeatBody => repeatLoop (walk body) close
    | .forEach var first last step => forLoop var first last step (walk body) close
    | .proc => walkProc walk body close
    | _ => return ()

/-! ## Lines -/

/-- What a line is in the structure of blocks: it opens one, it is out of place, or it stands by
itself. -/
inductive LineRole where
  | opens (block : Block) (s : Statement)
  | orphan (closer opener : String)
  | single

def SourceLine.role (line : SourceLine) : LineRole :=
  match line.stmt with
  | some (.statement s) =>
    match s.opens, s.closes with
    | some block, _ => .opens block s
    | none, some block => .orphan block.closer block.opener
    | none, none =>
      match s with
      | .elseIf _ => .orphan "ELIF" "IF"
      | .otherwise => .orphan "ELSE" "IF"
      | _ => .single
  | _ => .single

/-- At most `n` lines walked from top to bottom, until a loop pass is left or a block has no end.
`expand` walks the lines of macros. -/
def walkLines (expand : Option LineWalker) : Nat → LineWalker
  | 0, _ => return ()
  | _ + 1, [] => return ()
  | n + 1, line :: lines => do
    if (← get).isInterrupted then return
    modify fun a => a.moveTo line.pos
    match line.role with
    | .opens block s =>
      modify fun a => { a with opened := none }
      match splitBlock block [] lines with
      | none => report (.missingEnd block.closer)
      | some (body, close, rest) =>
        walkBlock (walkLines expand n) line s body close
        walkLines expand n rest
    | .orphan closer opener =>
      report (.orphan closer opener)
      walkLines expand n lines
    | .single =>
      walkSingle expand line
      walkLines expand n lines

def walkDepth : Nat → LineWalker
  | 0, lines => walkLines none lines.length lines
  | depth + 1, lines => walkLines (some (walkDepth depth)) lines.length lines

def walkProgram (lines : List SourceLine) : Walk Unit := do
  walkDepth (← get).setup.options.maxMacroDepth lines

def assembleLines (lines : List SourceLine) : Walk Unit := do
  walkProgram lines
  modify fun a => a.flushLabel.resolveAll

end SpectrumAsm
