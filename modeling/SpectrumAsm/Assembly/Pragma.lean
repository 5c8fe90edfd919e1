/-
All pragmas.
-/
import SpectrumAsm.Assembly.Data
import SpectrumAsm.Assembly.Label

namespace SpectrumAsm

open SpectrumAsm.Cpu

/-- A new start address. It moves the last segment while that is empty and begins a new one
otherwise. -/
def Assembly.setOrigin (a : Assembly) (start : UInt16) : Assembly :=
  match a.segments.back? with
  | some s =>
    if s.bytes.isEmpty then
      { a with segments := a.segments.modify a.lastSegment fun s => { s with start } }
    else { a with segments := a.segments.push { start } }
  | none => { a with segments := a.segments.push { start } }

def setOrigin (e : Expr) (label : Option String) : Step Unit := do
  let start := lowWord (← evalInt e)
  modify fun a =>
    let a := a.setOrigin start
    match label with
    | some label => a.bindLabel label start
    | none => a

def setDisplacement (e : Expr) : Step Unit := do
  let d ← evalInt e
  modify fun a =>
    let a := a.openSegment
    { a with segments := a.segments.modify a.lastSegment fun s =>
      { s with displacement := some d.toInt32 } }

def setEntry (exported : Bool) (e : Expr) : Step Unit := do
  if (← get).symbols.top?.isSome then throw (.globalOnly (if exported then "XENT" else "ENT"))
  match ← evalExpr e with
  | .ready v =>
    let w ← ofExcept v.lowWord
    modify fun a =>
      if exported then { a with exportEntry := some w } else { a with entry := some w }
  | .pending _ =>
    let kind := if exported then PatchKind.exportEntry else .entry
    modify fun a => a.addPatch kind a.lastSegment 0 e none

/-- `.equ`. A constant that is not known yet is defined without a value. -/
def defineEqu (e : Expr) (label : Option String) : Step Unit := do
  let some label := label | throw .equLabel
  let outcome ← evalExpr e
  let value := match outcome with
    | .ready v => some v
    | .pending _ => none
  let slot ← Step.of fun a => a.define label .equ value
  if value.isNone then
    modify fun a => a.addPatch .equ a.lastSegment 0 e (some (slot, Text.upcase label))

def setVariable (e : Expr) (label : Option String) : Step Unit := do
  let some label := label | throw .varLabel
  let v ← evalNow e
  Step.of fun a => a.setVar label v

def setModel (name : String) : Step Unit := do
  if (← get).model.isSome then throw .modelTwice
  match Model.parse name with
  | .ok model => modify fun a => { a with model := some model }
  | .error _ => throw .modelValue

def Value.shownHex : Value → String
  | .int n => Text.hexUpper (if n > 0x10000 then 8 else 4) n.toUInt64.toNat
  | .str s => String.join ((Text.messageBytes s).map fun b => Text.hexUpper 2 b.toNat)
  | v => v.shown

def addTrace (hex : Bool) (es : List Expr) : Step Unit := do
  let shown ← es.mapM fun e => do
    let v ← evalNow e
    return if hex then v.shownHex else v.shown
  modify fun a => { a with trace := a.trace.push (String.join shown) }

/-- `.rndseed`. Without a number the time of day is the seed. -/
def seedRandom : Option Expr → Step Unit
  | some e => do
    let n ← evalInt e
    modify fun a => { a with random := .ofSeed n.toUInt64 }
  | none =>
    modify fun a => { a with random := .ofSeed (a.setup.clock a.readings), readings := a.readings + 1 }

def runPragma (label : Option String) : Pragma → Step Unit
  | .org e => setOrigin e label
  | .ent e => setEntry false e
  | .xent e => setEntry true e
  | .disp e => setDisplacement e
  | .equ e => defineEqu e label
  | .var e => setVariable e label
  | .skip target fill => emitSkip target fill
  | .defb es => emitValues addByteOf es
  | .defw es => emitValues addWordOf es
  | .defm e => do emitBytes (← messageOf e)
  | .defn e => do emitBytes ((← messageOf e) ++ [0])
  | .defc e => do emitBytes (markLast (← messageOf e))
  | .defh e => do emitBytes (← hexOf e)
  | .defs count => do emitFill (← evalInt count) 0
  | .fillb count value => do
    let n ← fillCount (← evalInt count) 1
    let b := lowByte (← evalInt value)
    emitBytes (List.replicate n b)
  | .fillw count value => do
    let n ← fillCount (← evalInt count) 2
    let w := lowWord (← evalInt value)
    emitBytes (repeatWord n w)
  | .model name => setModel name
  | .align e => emitAlign e
  | .trace hex es => addTrace hex es
  | .rndseed e => seedRandom e
  | .defg e => do emitBytes (← patternOf Text.patternBytes e)
  | .defgx e => do emitBytes (← patternOf Text.alignedPatternBytes e)
  | .error e => do
    let v ← evalNow e
    throw (.user v.shown)
  | .includebin file offset length => emitFile file offset length

end SpectrumAsm
