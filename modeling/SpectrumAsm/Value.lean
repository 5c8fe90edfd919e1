/-
Values of expressions. Whole numbers are 64 bits wide and wrap around; a truth value counts as one
or zero wherever a number is wanted.
-/
import SpectrumAsm.Real.Shortest

namespace SpectrumAsm

inductive Value where
  | bool (b : Bool)
  | int (i : Int64)
  | real (r : Float)
  | str (s : String)
  deriving DecidableEq, Repr

/-- The smallest field a whole number fits in, signed or unsigned. -/
inductive Width where
  | byte | word | wide
  deriving DecidableEq, Repr

namespace Value

def typeName : Value → String
  | bool _ => "bool"
  | int _ => "integer"
  | real _ => "real"
  | str _ => "string"

def integer? : Value → Option Int64
  | bool b => some (if b then 1 else 0)
  | int i => some i
  | _ => none

def real? : Value → Option Float
  | real r => some r
  | v => v.integer?.map fun i => .ofInt i.toInt

/-- The truth of a value as a condition. Texts have none. -/
def truth? : Value → Option Bool
  | bool b => some b
  | int i => some (i != 0)
  | real r => some (r != 0.0)
  | str _ => none

def isPositive : Value → Bool
  | real r => r > 0.0
  | v => 0 < v.integer?.getD 0

def text? : Value → Option String
  | str s => some s
  | _ => none

/-- The low sixteen bits of a number; reals lose their fraction first. -/
def word? : Value → Option UInt16
  | real r => some r.toInt64.toUInt64.toUInt16
  | v => v.integer?.map fun i => i.toUInt64.toUInt16

def isIntegral : Value → Bool
  | bool _ | int _ => true
  | _ => false

def isText : Value → Bool
  | str _ => true
  | _ => false

def width (v : Value) : Width :=
  match v.integer? with
  | some i =>
    if -128 ≤ i.toInt ∧ i.toInt ≤ 255 then .byte
    else if -32768 ≤ i.toInt ∧ i.toInt ≤ 65535 then .word
    else .wide
  | none => .wide

def shown : Value → String
  | bool b => if b then "true" else "false"
  | int i => toString i.toInt
  | real r => Real.text r
  | str s => s

end Value

end SpectrumAsm
