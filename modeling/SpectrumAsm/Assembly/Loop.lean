/-
Loops.

Every pass has a scope of its own, which also counts it. A loop is a rule for going on before a pass, which
may hand on a value, and a rule for stopping after it; `iterate` carries out the passes.
-/
import SpectrumAsm.Assembly.Label
import SpectrumAsm.Assembly.Resolve

namespace SpectrumAsm

/-- `proceed` sees the number of the pass and the value handed on, and answers with the value for the pass, or
`none` to stop. -/
structure LoopRule (σ : Type) where
  proceed : Int64 → σ → Step (Option σ)
  finished : Step Bool := return false

/-- What stays the same during a loop: its lines, its closing line, the line that opened it, and the
number of diagnostics before it. -/
structure LoopFrame where
  body : Walk Unit
  close : SourceLine
  start : Position
  faults : Nat

/-- The scope of a pass closes. The answer says whether the loop is over. -/
def closePass (close : SourceLine) (finished : Step Bool) : Walk Bool := do
  let exit := (← get).symbols.topScope?.bind (·.exit)
  let done ← if exit == some .endLoop then pure true else do
    modify fun a => a.moveTo close.pos
    reportingOr true finished
  modify fun a => a.closeScope
  return done

/-- What follows the lines of a pass with scope `id`: its closing label, and what can be resolved inside it. -/
def endPass (close : SourceLine) (finished : Step Bool) (id : Option Nat) : Walk Bool := do
  modify fun a =>
    let a := a.bindEndLabel close.label close.pos
    match id with
    | some id => a.resolveScope id
    | none => a
  closePass close finished

namespace LoopFrame

def beginPass (f : LoopFrame) (pass : Int64) : Walk Unit :=
  modify fun a =>
    let a := a.openScope .pass
    let a := { a with symbols := a.symbols.modifyTop fun s => { s with counter := pass } }
    a.moveTo f.start

def runPass (f : LoopFrame) (finished : Step Bool) : Walk Bool := do
  let id := (← get).symbols.top?
  f.body
  endPass f.close finished id

def isOverLimit (f : LoopFrame) (a : Assembly) : Bool :=
  let limit := a.setup.options.maxLoopErrors
  limit > 0 && a.diagnostics.size - f.faults ≥ limit

end LoopFrame

/-- Passes from number `pass` on, of which at most `left` are carried out. -/
def iterate {σ : Type} (f : LoopFrame) (rule : LoopRule σ) : Nat → Int64 → σ → Walk Unit
  | left, pass, carried => do
    f.beginPass pass
    match ← reportingOr none (rule.proceed pass carried) with
    | none => modify fun a => a.closeScope
    | some carried =>
      match left with
      | 0 => modify fun a => a.closeScope.report .loopOverflow
      | left + 1 =>
        let done ← f.runPass rule.finished
        if f.isOverLimit (← get) then
          modify fun a => ({ a with pos := f.start } : Assembly).report .tooManyLoopErrors
        else if done then return
        else iterate f rule left (pass + 1) carried

def runLoop {σ : Type} (body : Walk Unit) (close : SourceLine) (rule : LoopRule σ) (first : σ) :
    Walk Unit := do
  let a ← get
  let frame : LoopFrame := { body, close, start := a.pos, faults := a.diagnostics.size }
  iterate frame rule a.setup.options.maxLoopIterations.toInt.toNat 1 first

def countedLoop (count : Expr) (body : Walk Unit) (close : SourceLine) : Walk Unit := do
  match ← (evalInt count).run with
  | .error fault => report fault
  | .ok count =>
    if count > (← get).setup.options.maxLoopIterations then report .loopCount
    else
      let proceed := fun pass () => return if pass ≤ count then some () else none
      runLoop body close { proceed } ()

def whileLoop (condition : Expr) (body : Walk Unit) (close : SourceLine) : Walk Unit :=
  runLoop body close {
    proceed := fun _ () => return if ← evalTruth condition then some () else none } ()

def repeatLoop (body : Walk Unit) (close : SourceLine) : Walk Unit :=
  match close.stmt with
  | some (.statement (.untilTrue condition)) =>
    runLoop body close { proceed := fun _ () => return some (), finished := evalTruth condition } ()
  | _ => return ()

/-! ## Counting loops -/

def checkBounds (first last step : Value) : Step (Value × Value × Value) := do
  if first.isText || last.isText || step.isText then throw .numericExpected
  if step.truth? == some false then throw .zeroStep
  return (first, last, step)

def evalBounds (first last : Expr) (step : Option Expr) : Step (Value × Value × Value) := do
  let first ← evalNow first
  let last ← evalNow last
  match step with
  | some e => checkBounds first last (← evalNow e)
  | none => checkBounds first last (.int 1)

/-- Bounds count in whole numbers if all of them are whole, and in reals otherwise. -/
def Value.forCounting (integral : Bool) (v : Value) : Value :=
  if integral then .int (v.integer?.getD 0) else .real (v.real?.getD 0.0)

def combine (op : BinaryOp) (l r : Value) : Step Value :=
  ofExcept ((Value.binary op l r).mapError .ofExpr)

/-- The variable `key` of scope `id` gets a value, unless this is past the last one. -/
def countTo (id : Nat) (key : String) (last step v : Value) : Step (Option Value) := do
  let past ← combine (if step.isPositive then .gt else .lt) v last
  if past.truth? == some true then return none
  modify fun a => { a with symbols := a.symbols.assign (.scope id) key v }
  return some v

def countingRule (id : Nat) (key : String) (last step : Value) : LoopRule Value where
  proceed pass v := do
    let v ← if pass > 1 then combine .add v step else pure v
    countTo id key last step v

/-- The scope of a counting loop opened, with the variable of the loop in it. -/
def Assembly.openLoop (a : Assembly) (key : String) (v : Value) : Assembly :=
  { a.openScope .loop with
    symbols := (a.openScope .loop).symbols.addSymbol (.scope a.symbols.nextScope)
      ⟨key, .var, some v, a.pos⟩ }

/-- A counting loop. Its variable lives in a scope around all passes, and may not hide another
symbol. -/
def forLoop (var : String) (first last : Expr) (step : Option Expr) (body : Walk Unit)
    (close : SourceLine) : Walk Unit := do
  if (← get).symbols.isVisible var then report (.forVariable var)
  else
    match ← (evalBounds first last step).run with
    | .error fault => report fault
    | .ok (first, last, step) =>
      let integral := first.isIntegral && last.isIntegral && step.isIntegral
      let first := first.forCounting integral
      let last := last.forCounting integral
      let step := step.forCounting integral
      let id := (← get).symbols.nextScope
      let key := Text.upcase var
      modify fun a => a.openLoop key first
      runLoop body close (countingRule id key last step) first
      modify fun a => a.closeScope

end SpectrumAsm
