/-
Values of expressions.

An expression waits for all of its symbols, also those in a branch that will not be taken, and only then is
computed: a value once found does not depend on later definitions.
-/
import SpectrumAsm.Function

namespace SpectrumAsm

/-- What an expression can refer to: the values of symbols, the address of its line, and the number
of the innermost loop pass. -/
structure Env where
  symbol : SymbolRef → Option Value
  address : UInt16
  counter : Option Int64

/-- Outcome of an evaluation: a value, or the names that still have none. -/
inductive Evaluated where
  | ready (v : Value)
  | pending (names : List String)
  deriving DecidableEq, Repr

def unescape : List Char → List Char
  | [] => []
  | ['\\'] => ['\\']
  | '\\' :: c :: cs =>
    (match c with
      | 'n' => '\n'
      | 'r' => '\r'
      | 't' => '\t'
      | '0' => '\x00'
      | c => c) :: unescape cs
  | c :: cs => c :: unescape cs

def distinct {α : Type} [BEq α] (xs : List α) : List α :=
  xs.foldl (fun seen x => if seen.contains x then seen else seen ++ [x]) []

namespace Expr

mutual
def value (env : Env) : Expr → Draw Value
  | int i => pure (.int i)
  | real r => pure (.real r)
  | bool b => pure (.bool b)
  | text raw =>
    let cs := unescape raw.toList
    if cs.length > Value.maxText then throw (.stringTooLong Value.maxText)
    else pure (.str (String.ofList cs))
  | symbol ref => pure ((env.symbol ref).getD (.int 0))
  | address => pure (.int (Int64.ofNat env.address.toNat))
  | counter =>
    match env.counter with
    | some n => pure (.int n)
    | none => throw .counterOutsideLoop
  | param name => throw (.param name)
  | unary op arg => do
    let v ← value env arg
    ofExcept (Value.unary op v)
  | binary op left right => do
    let l ← value env left
    let r ← value env right
    ofExcept (Value.binary op l r)
  | cond test yes no => do
    let t ← value env test
    match t.truth? with
    | some true => value env yes
    | some false => value env no
    | none => throw .condition
  | call name args => do
    let vs ← values env args
    Function.call name vs
def values (env : Env) : List Expr → Draw (List Value)
  | [] => pure []
  | e :: es => do
    let v ← value env e
    let vs ← values env es
    return v :: vs
end

def pendingNames (env : Env) (e : Expr) : List String :=
  distinct ((e.symbols.filter fun s => (env.symbol s).isNone).map SymbolRef.text)

def evaluate (env : Env) (e : Expr) : Draw Evaluated :=
  match e.params with
  | name :: _ => throw (.param name)
  | [] =>
    match e.pendingNames env with
    | [] => do return .ready (← e.value env)
    | names => pure (.pending names)

end Expr

end SpectrumAsm
