/-
What a source line can say: operations, pragmas that place data or set the scene, statements that are carried
out while assembling, directives that choose lines beforehand, invocations, and overrides of structure fields.
-/
import SpectrumAsm.Cpu.Mnemonic
import SpectrumAsm.Operand

namespace SpectrumAsm

open SpectrumAsm.Cpu

inductive Pragma where
  | org (e : Expr)
  | ent (e : Expr)
  | xent (e : Expr)
  | disp (e : Expr)
  | equ (e : Expr)
  | var (e : Expr)
  | skip (target : Expr) (fill : Option Expr)
  | defb (es : List Expr)
  | defw (es : List Expr)
  | defm (e : Expr)
  | defn (e : Expr)
  | defc (e : Expr)
  | defh (e : Expr)
  | defs (count : Expr)
  | fillb (count value : Expr)
  | fillw (count value : Expr)
  | model (name : String)
  | align (e : Option Expr)
  | trace (hex : Bool) (es : List Expr)
  | rndseed (e : Option Expr)
  | defg (e : Expr)
  | defgx (e : Expr)
  | error (e : Expr)
  | includebin (file : Expr) (offset length : Option Expr)
  deriving Repr

namespace Pragma

def setsLabel : Pragma → Bool
  | org _ | equ _ | var _ => true
  | _ => false

def emitsData : Pragma → Bool
  | defb _ | defw _ | defm _ | defn _ | defc _ | defh _ | defs _ | fillb _ _ | fillw _ _
  | defg _ | defgx _ => true
  | _ => false

def exprs : Pragma → List Expr
  | org e | ent e | xent e | disp e | equ e | var e | defm e | defn e | defc e | defh e | defs e
  | defg e | defgx e | error e => [e]
  | skip target fill => target :: fill.toList
  | fillb count value | fillw count value => [count, value]
  | defb es | defw es | trace _ es => es
  | align e | rndseed e => e.toList
  | includebin file offset length => file :: offset.toList ++ length.toList
  | model _ => []

def mapExprs (f : Expr → Expr) : Pragma → Pragma
  | org e => org (f e)
  | ent e => ent (f e)
  | xent e => xent (f e)
  | disp e => disp (f e)
  | equ e => equ (f e)
  | var e => var (f e)
  | skip target fill => skip (f target) (fill.map f)
  | defb es => defb (es.map f)
  | defw es => defw (es.map f)
  | defm e => defm (f e)
  | defn e => defn (f e)
  | defc e => defc (f e)
  | defh e => defh (f e)
  | defs e => defs (f e)
  | fillb count value => fillb (f count) (f value)
  | fillw count value => fillw (f count) (f value)
  | model name => model name
  | align e => align (e.map f)
  | trace hex es => trace hex (es.map f)
  | rndseed e => rndseed (e.map f)
  | defg e => defg (f e)
  | defgx e => defgx (f e)
  | error e => error (f e)
  | includebin file offset length => includebin (f file) (offset.map f) (length.map f)

end Pragma

inductive Block where
  | choice | loop | whileLoop | repeatLoop | forLoop | macroDef | proc | moduleDef | structDef
  deriving DecidableEq, Repr

namespace Block

def closer : Block → String
  | choice => "ENDIF"
  | loop => "ENDL/LEND"
  | whileLoop => "ENDW/WEND"
  | repeatLoop => "UNTIL"
  | forLoop => "NEXT"
  | macroDef => "ENDM/MEND"
  | proc => "ENDP/PEND"
  | moduleDef => "ENDMODULE/MODULEEND"
  | structDef => "ENDS"

def opener : Block → String
  | choice => "IF"
  | loop => "LOOP"
  | whileLoop => "WHILE"
  | repeatLoop => "REPEAT"
  | forLoop => "FOR"
  | macroDef => "MACRO"
  | proc => "PROC"
  | moduleDef => "MODULE"
  | structDef => "STRUCT"

end Block

inductive Statement where
  | ifTrue (e : Expr)
  | ifUsed (s : SymbolRef)
  | ifUnused (s : SymbolRef)
  | elseIf (e : Expr)
  | otherwise
  | endIf
  | loop (count : Expr)
  | endLoop
  | whileTrue (e : Expr)
  | endWhile
  | repeatBody
  | untilTrue (e : Expr)
  | forEach (var : String) (first last : Expr) (step : Option Expr)
  | endFor
  | breakLoop
  | continueLoop
  | macroDef (params : List String)
  | endMacro
  | proc
  | endProc
  | locals (names : List String)
  | moduleDef (name : Option String)
  | endModule
  | structDef
  | endStruct
  deriving Repr

namespace Statement

def opens : Statement → Option Block
  | ifTrue _ | ifUsed _ | ifUnused _ => some .choice
  | loop _ => some .loop
  | whileTrue _ => some .whileLoop
  | repeatBody => some .repeatLoop
  | forEach _ _ _ _ => some .forLoop
  | macroDef _ => some .macroDef
  | proc => some .proc
  | moduleDef _ => some .moduleDef
  | structDef => some .structDef
  | _ => none

def closes : Statement → Option Block
  | endIf => some .choice
  | endLoop => some .loop
  | endWhile => some .whileLoop
  | untilTrue _ => some .repeatLoop
  | endFor => some .forLoop
  | endMacro => some .macroDef
  | endProc => some .proc
  | endModule => some .moduleDef
  | endStruct => some .structDef
  | _ => none

def exprs : Statement → List Expr
  | ifTrue e | elseIf e | loop e | whileTrue e | untilTrue e => [e]
  | forEach _ first last step => first :: last :: step.toList
  | _ => []

def mapExprs (f : Expr → Expr) : Statement → Statement
  | ifTrue e => ifTrue (f e)
  | elseIf e => elseIf (f e)
  | loop e => loop (f e)
  | whileTrue e => whileTrue (f e)
  | untilTrue e => untilTrue (f e)
  | forEach var first last step => forEach var (f first) (f last) (step.map f)
  | s => s

end Statement

inductive Directive where
  | define (name : String)
  | undef (name : String)
  | ifDef (name : String)
  | ifNotDef (name : String)
  | ifTrue (e : Expr)
  | ifModel (name : String)
  | ifNotModel (name : String)
  | otherwise
  | endIf
  | includeFile (path : String)
  deriving Repr

inductive Stmt where
  | op (mnemonic : Mnemonic) (operands : List Operand)
  | pragma (p : Pragma)
  | statement (s : Statement)
  | directive (d : Directive)
  | invoke (name : String) (args : List Operand)
  | field (name : Option String) (p : Pragma)
  deriving Repr

def Operand.expr? : Operand → Option Expr
  | .indexed _ (some (_, e)) | .memory e | .expr e => some e
  | _ => none

def Operand.mapExpr (f : Expr → Expr) : Operand → Operand
  | .indexed reg (some (sign, e)) => .indexed reg (some (sign, f e))
  | .memory e => .memory (f e)
  | .expr e => .expr (f e)
  | o => o

namespace Stmt

def operands : Stmt → List Operand
  | op _ os | invoke _ os => os
  | _ => []

def exprs : Stmt → List Expr
  | op _ os | invoke _ os => os.filterMap Operand.expr?
  | pragma p | field _ p => p.exprs
  | statement s => s.exprs
  | directive _ => []

def mapOperands (f : Operand → Operand) : Stmt → Stmt
  | op m os => op m (os.map f)
  | invoke name os => invoke name (os.map f)
  | s => s

/-- The line with every expression replaced, directives apart. -/
def mapExprs (f : Expr → Expr) : Stmt → Stmt
  | op m os => op m (os.map (Operand.mapExpr f))
  | invoke name os => invoke name (os.map (Operand.mapExpr f))
  | pragma p => pragma (p.mapExprs f)
  | field name p => field name (p.mapExprs f)
  | statement s => statement (s.mapExprs f)
  | directive d => directive d

def opens : Stmt → Option Block
  | statement s => s.opens
  | _ => none

def closes : Stmt → Option Block
  | statement s => s.closes
  | _ => none

end Stmt

/-- A place in the source: the number of the file and of the line, both from zero. -/
structure Position where
  file : Nat
  line : Nat
  deriving DecidableEq, Repr, Hashable

structure SourceLine where
  pos : Position
  label : Option String
  stmt : Option Stmt
  comment : Option String
  deriving Repr

end SpectrumAsm
