/-
Operators on values.

Texts can only be joined and compared. Bit operations want whole numbers. Elsewhere two whole numbers give a
whole number, modulo 2 ^ 64, and any real operand makes the operation one of reals.
-/
import SpectrumAsm.Expr
import SpectrumAsm.Fault
import SpectrumAsm.Value

namespace SpectrumAsm.Value

def maxText : Nat := 10000

/-- What a comparison says about two ordered operands; other operators compare nothing. -/
def compares (op : BinaryOp) (order : Ordering) : Bool :=
  match op with
  | .eq => order == .eq
  | .ne => order != .eq
  | .lt => order == .lt
  | .le => order != .gt
  | .gt => order == .gt
  | .ge => order != .lt
  | _ => false

/-- Bit pattern operations; shifts by a negative amount or by the whole width shift everything
out. -/
def bitwise (op : BinaryOp) (l r : Int64) : Option Int64 :=
  let inside := 0 ≤ r.toInt && r.toInt < 64
  match op with
  | .and => some (l &&& r)
  | .or => some (l ||| r)
  | .xor => some (l ^^^ r)
  | .shl => some (if inside then l <<< r else 0)
  | .shr => some (if inside then l >>> r else if l < 0 then -1 else 0)
  | _ => none

/-- Order of two numbers, `none` if one of them is not a number. -/
def orderReal (l r : Float) : Option Ordering :=
  if l < r then some .lt
  else if l == r then some .eq
  else if l > r then some .gt
  else none

def integral (op : BinaryOp) (l r : Int64) : Except ExprFault Value :=
  match op with
  | .add => .ok (int (l + r))
  | .sub => .ok (int (l - r))
  | .mul => .ok (int (l * r))
  | .div => if r == 0 then .error .divideByZero else .ok (int (l / r))
  | .mod => if r == 0 then .error .divideByZero else .ok (int (l % r))
  | _ => .ok (bool (compares op (compare l.toInt r.toInt)))

/-- Arithmetic and comparison of reals. Nothing but `!=` holds of an operand that is not a
number. -/
def fractional (op : BinaryOp) (l r : Float) : Except ExprFault Value :=
  match op with
  | .add => .ok (real (l + r))
  | .sub => .ok (real (l - r))
  | .mul => .ok (real (l * r))
  | .div => if r == 0.0 then .error .divideByZero else .ok (real (l / r))
  | .mod => if r == 0.0 then .error .divideByZero else .ok (real (Real.remainder l r))
  | _ =>
    .ok (bool (match orderReal l r with
      | some order => compares op order
      | none => op == .ne))

def orderText (l r : String) : Ordering :=
  if l < r then .lt else if l == r then .eq else .gt

def textual (op : BinaryOp) (l r : String) : Except ExprFault Value :=
  match op with
  | .add =>
    if l.utf8ByteSize + r.utf8ByteSize > maxText then .error (.stringTooLong maxText)
    else .ok (str (l ++ r))
  | .eq | .ne | .lt | .le | .gt | .ge => .ok (bool (compares op (orderText l r)))
  | _ => .error (.binary op.symbol "string" "string")

def unary (op : UnaryOp) (v : Value) : Except ExprFault Value :=
  let refuse : Except ExprFault Value := .error (.unary op.symbol v.typeName)
  match op, v with
  | .pos, .str _ => refuse
  | .pos, .bool b => .ok (int (if b then 1 else 0))
  | .pos, v => .ok v
  | .neg, .real r => .ok (real (-r))
  | .neg, v => (v.integer?.map fun i => Except.ok (int (-i))).getD refuse
  | .not, v => (v.truth?.map fun b => Except.ok (bool (!b))).getD refuse
  | .inv, v => (v.integer?.map fun i => Except.ok (int (~~~i))).getD refuse

def binary (op : BinaryOp) (l r : Value) : Except ExprFault Value :=
  let refuse : Except ExprFault Value := .error (.binary op.symbol l.typeName r.typeName)
  match l, r with
  | .str l, .str r => textual op l r
  | .str _, _ => refuse
  | _, .str _ => refuse
  | l, r =>
    if op ∈ [.and, .or, .xor, .shl, .shr] then
      match l.integer?, r.integer? with
      | some l, some r => ((bitwise op l r).map fun i => Except.ok (int i)).getD refuse
      | _, _ => refuse
    else
      match l.integer?, r.integer? with
      | some l, some r => integral op l r
      | _, _ =>
        match l.real?, r.real? with
        | some l, some r => fractional op l r
        | _, _ => refuse

end SpectrumAsm.Value
