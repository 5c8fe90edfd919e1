/-
Evaluation of expressions during an assembly.
-/
import SpectrumAsm.Assembly

namespace SpectrumAsm

/-- Where an expression is evaluated: the scope and module it stands in, and the value of `$`. -/
structure Place where
  scope : Option Nat
  module : Nat
  origin : UInt16
  deriving DecidableEq, Repr

def Patch.place (p : Patch) : Place := ⟨p.scope, p.module, p.origin⟩

namespace SymbolTable

def env (t : SymbolTable) (place : Place) : Env where
  symbol ref := (t.lookup ref place.scope place.module).bind (·.value)
  address := place.origin
  counter := t.loopCounter? place.scope

/-- All symbols of an expression were asked for, whether it has a value or not. -/
def markExpr (t : SymbolTable) (e : Expr) : SymbolTable :=
  e.symbols.foldl (fun t ref => t.markUsed ref.joined) t

end SymbolTable

namespace Assembly

def place (a : Assembly) : Place := ⟨a.symbols.top?, a.symbols.current, a.origin⟩

/-- The outcome of an expression at a place, and the state with its symbols asked for and its random
numbers drawn. -/
def evalAt (a : Assembly) (place : Place) (e : Expr) : Except Fault Evaluated × Assembly :=
  let (result, random) := (e.evaluate (a.symbols.env place)).run.run a.random
  (result.mapError .ofExpr, { a with random, symbols := a.symbols.markExpr e })

end Assembly

def evalExpr (e : Expr) : Step Evaluated :=
  Step.of fun a => a.evalAt a.place e

def Fault.waiting (names : List String) : Fault :=
  .notEvaluable (", ".intercalate names)

def evalNow (e : Expr) : Step Value := do
  match ← evalExpr e with
  | .ready v => return v
  | .pending names => throw (.waiting names)

/-- The whole number of a value; reals lose their fraction. -/
def Value.number (v : Value) : Except Fault Int64 :=
  match v with
  | .str _ => .error .numericExpected
  | .real r => .ok r.toInt64
  | .int i => .ok i
  | .bool b => .ok (if b then 1 else 0)

def Value.lowWord (v : Value) : Except Fault UInt16 :=
  match v with
  | .str _ => .error .numericExpected
  | v => .ok (v.word?.getD 0)

def evalInt (e : Expr) : Step Int64 := do
  let v ← evalNow e
  ofExcept v.number

def evalTruth (e : Expr) : Step Bool := do
  let v ← evalNow e
  match v.truth? with
  | some b => return b
  | none => throw .numericExpected

end SpectrumAsm
