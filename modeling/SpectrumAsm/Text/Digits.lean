/-
Whole numbers in positional notation: digits and their values, reading in a radix, hexadecimal
writing.
-/
namespace SpectrumAsm.Text

/-- Value of a digit of a radix up to 16; letters of either case stand for ten to fifteen. -/
def digitValue (radix : Nat) (c : Char) : Option Nat :=
  let n := c.toNat
  let value :=
    if 48 ≤ n ∧ n ≤ 57 then some (n - 48)
    else if 65 ≤ n ∧ n ≤ 70 then some (n - 55)
    else if 97 ≤ n ∧ n ≤ 102 then some (n - 87)
    else none
  value.filter (· < radix)

def isHexDigit (c : Char) : Bool := (digitValue 16 c).isSome

/-- The number written by `cs` after digits worth `acc`; `none` if one of them is no digit. -/
def readDigits (radix : Nat) (acc : Nat) : List Char → Option Nat
  | [] => some acc
  | c :: cs => (digitValue radix c).bind fun d => readDigits radix (acc * radix + d) cs

def readNat (radix : Nat) (cs : List Char) : Option Nat :=
  if cs.isEmpty then none else readDigits radix 0 cs

/-- The number a list of digits writes, if it is a 64-bit signed number. -/
def readWord64 (radix : Nat) (cs : List Char) : Option Int64 :=
  (readNat radix cs).bind fun n => if n < 1 <<< 63 then some (Int64.ofNat n) else none

/-- A number below `limit`, in decimal with an optional plus sign. -/
def readBounded (radix limit : Nat) (s : String) : Option Nat :=
  let digits := match s.toList with
    | '+' :: rest => rest
    | cs => cs
  (readNat radix digits).filter (· < limit)

def hexLower (width n : Nat) : String :=
  let digits := Nat.toDigits 16 n
  String.ofList (List.replicate (width - digits.length) '0' ++ digits)

def hexUpper (width n : Nat) : String :=
  let digits := (Nat.toDigits 16 n).map Char.toUpper
  String.ofList (List.replicate (width - digits.length) '0' ++ digits)

end SpectrumAsm.Text
