/-
Functions of the expression language.

Of its signatures, a function uses the first that accepts the kinds of the arguments. A result that is
infinite or not a number is a domain fault.
-/
import SpectrumAsm.Random
import SpectrumAsm.Text.Case
import SpectrumAsm.Value.Operators

namespace SpectrumAsm

/-- A computation that may draw random numbers and may fail; numbers drawn before a failure stay
drawn. -/
abbrev Draw := ExceptT ExprFault (StateM Random)

namespace Function

inductive Param where
  | int | real | str | any
  deriving DecidableEq, Repr

def Param.accepts : Param → Value → Bool
  | int, v => v.isIntegral
  | real, v => !v.isText
  | str, v => v.isText
  | any, _ => true

structure Signature where
  name : String
  params : List Param
  body : List Value → Draw Value

def intArg (args : List Value) (n : Nat) : Int64 := (args[n]?.bind Value.integer?).getD 0

def realArg (args : List Value) (n : Nat) : Float := (args[n]?.bind Value.real?).getD 0.0

def textArg (args : List Value) (n : Nat) : String := (args[n]?.bind Value.text?).getD ""

def ofReal (name : String) (f : Float → Float) : Signature :=
  ⟨name, [.real], fun a => pure (.real (f (realArg a 0)))⟩

def ofReals (name : String) (f : Float → Float → Float) : Signature :=
  ⟨name, [.real, .real], fun a => pure (.real (f (realArg a 0) (realArg a 1)))⟩

def ofInt (name : String) (f : Int64 → Int64) : Signature :=
  ⟨name, [.int], fun a => pure (.int (f (intArg a 0)))⟩

def ofInts (name : String) (f : Int64 → Int64 → Int64) : Signature :=
  ⟨name, [.int, .int], fun a => pure (.int (f (intArg a 0) (intArg a 1)))⟩

def ofText (name : String) (f : String → Value) : Signature :=
  ⟨name, [.str], fun a => pure (f (textArg a 0))⟩

def bounded (name : String) (value : Int64) (lo hi : Int) : Draw Int64 :=
  if lo ≤ value.toInt ∧ value.toInt ≤ hi then pure value else throw (.domain name)

def natural (name : String) (value : Int64) : Draw Nat :=
  if 0 ≤ value.toInt then pure value.toInt.toNat else throw (.domain name)

/-- The greater of two reals, the second of two equal ones, so that the zeros keep their signs; a
value that is not a number gives way to the other. -/
def maxReal (x y : Float) : Float :=
  if x > y || y.isNaN then x else y

def minReal (x y : Float) : Float :=
  if x < y || y.isNaN then x else y

def textLength (s : String) : Value := .int (Int64.ofNat s.length)

/-- A bit field of an attribute byte: a number up to `hi`, moved to its place. -/
def attributeField (name : String) (hi : Int) (place : Int64) : Signature :=
  ⟨name, [.int], fun a => do return .int ((← bounded name (intArg a 0) 0 hi) <<< place)⟩

/-- The attribute byte of ink, paper, brightness and flash; missing ones are zero. -/
def attributeByte (a : List Value) : Draw Value := do
  let ink ← bounded "attr" (intArg a 0) 0 7
  let paper ← bounded "attr" (intArg a 1) 0 7
  let bright ← bounded "attr" (intArg a 2) 0 1
  let flash ← bounded "attr" (intArg a 3) 0 1
  return .int (ink ||| paper <<< 3 ||| bright <<< 6 ||| flash <<< 7)

def screenAddress (a : List Value) : Draw Value := do
  let line ← bounded "scraddr" (intArg a 0) 0 191
  let col ← bounded "scraddr" (intArg a 1) 0 31
  let row : Int64 := ((line &&& 0xC0) <<< 5) + ((line &&& 0x07) <<< 8) + ((line &&& 0x38) <<< 2)
  return .int (0x4000 + row + col)

def attributeAddress (a : List Value) : Draw Value := do
  let line ← bounded "attraddr" (intArg a 0) 0 191
  let col ← bounded "attraddr" (intArg a 1) 0 31
  return .int (0x5800 + line / 8 * 32 + col)

def mathematics : List Signature := [
  ofInt "abs" (fun i => if i < 0 then -i else i),
  ofReal "abs" Float.abs,
  ofReal "acos" Float.acos,
  ofReal "asin" Float.asin,
  ofReal "atan" Float.atan,
  ofReals "atan2" Float.atan2,
  ofReal "ceiling" Float.ceil,
  ofReal "cos" Float.cos,
  ofReal "cosh" Float.cosh,
  ofReal "exp" Float.exp,
  ofReal "floor" Float.floor,
  ofReal "log" Float.log,
  ofReals "log" (fun x b => x.log / b.log),
  ofReal "log10" Float.log10,
  ofInts "max" (fun x y => if x.toInt < y.toInt then y else x),
  ofReals "max" maxReal,
  ofInts "min" (fun x y => if y.toInt < x.toInt then y else x),
  ofReals "min" minReal,
  ofReals "pow" Float.pow,
  ofReal "round" Float.round,
  ofInt "sign" (fun i => if i > 0 then 1 else if i < 0 then -1 else 0),
  ⟨"sign", [.real], fun a => do
    let r := realArg a 0
    return .int (if r > 0.0 then 1 else if r < 0.0 then -1 else 0)⟩,
  ofReal "sin" Float.sin,
  ofReal "sinh" Float.sinh,
  ofReal "sqrt" Float.sqrt,
  ofReal "tan" Float.tan,
  ofReal "tanh" Float.tanh,
  ofReal "truncate" Real.truncate,
  ⟨"int", [.real], fun a => do return .int (Real.truncate (realArg a 0)).toInt64⟩,
  ofReal "frac" (fun x => x - Real.truncate x),
  ⟨"pi", [], fun _ => pure (.real (Float.ofBits 0x400921FB54442D18))⟩,
  ⟨"nat", [], fun _ => pure (.real (Float.ofBits 0x4005BF0A8B145769))⟩,
  ofInt "low" (· &&& 0xFF),
  ofInt "high" (fun i => (i >>> 8) &&& 0xFF),
  ofInt "word" (· &&& 0xFFFF),
  ⟨"rnd", [], fun _ => do
    let n ← modifyGet Random.next32
    return .int (Int64.ofNat n.toNat)⟩,
  ⟨"rnd", [.int, .int], fun a => do
    let lo := intArg a 0
    let hi := intArg a 1
    if hi.toInt < lo.toInt then throw (.domain "rnd")
    return .int (← modifyGet fun g => g.range lo hi)⟩]

def texts : List Signature := [
  ofText "length" textLength,
  ofText "len" textLength,
  ⟨"left", [.str, .int], fun a => do
    let n ← natural "left" (intArg a 1)
    return .str (String.ofList ((textArg a 0).toList.take n))⟩,
  ⟨"right", [.str, .int], fun a => do
    let n ← natural "right" (intArg a 1)
    let cs := (textArg a 0).toList
    return .str (String.ofList (cs.drop (cs.length - n)))⟩,
  ⟨"mid", [.str, .int, .int], fun a => do
    let start ← natural "mid" (intArg a 1)
    let n ← natural "mid" (intArg a 2)
    return .str (String.ofList (((textArg a 0).toList.drop start).take n))⟩,
  ofText "lowercase" (fun s => .str (Text.lower s)),
  ofText "lcase" (fun s => .str (Text.lower s)),
  ofText "uppercase" (fun s => .str (Text.upper s)),
  ofText "ucase" (fun s => .str (Text.upper s)),
  ⟨"str", [.any], fun a => do
    let s := (a.head?.map Value.shown).getD ""
    if s.length > Value.maxText then throw (.stringTooLong Value.maxText)
    return .str s⟩,
  ⟨"fill", [.str, .int], fun a => do
    let cs := (textArg a 0).toList
    let n ← natural "fill" (intArg a 1)
    if cs.length * n > Value.maxText then throw (.stringTooLong Value.maxText)
    return .str (String.ofList (if cs.isEmpty then [] else (List.replicate n cs).flatten))⟩]

def screen : List Signature := [
  attributeField "ink" 7 0,
  attributeField "paper" 7 3,
  attributeField "bright" 1 6,
  attributeField "flash" 1 7,
  ⟨"attr", [.int, .int], attributeByte⟩,
  ⟨"attr", [.int, .int, .int], attributeByte⟩,
  ⟨"attr", [.int, .int, .int, .int], attributeByte⟩,
  ⟨"scraddr", [.int, .int], screenAddress⟩,
  ⟨"attraddr", [.int, .int], attributeAddress⟩]

def all : List Signature := mathematics ++ texts ++ screen

def Signature.fits (s : Signature) (args : List Value) : Bool :=
  s.params.length == args.length && (s.params.zip args).all fun (p, v) => p.accepts v

def call (name : String) (args : List Value) : Draw Value := do
  let named := all.filter (·.name == name)
  match named.find? (·.fits args) with
  | some signature =>
    let value ← signature.body args
    match value with
    | .real r => if Real.isFinite r then pure value else throw (.domain name)
    | _ => pure value
  | none => throw (if named.isEmpty then .unknownFunction name else .signature name)

end Function

end SpectrumAsm
