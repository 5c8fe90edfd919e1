/-
Decimal text of doubles: the fewest digits that read back as the same number, and of those the
nearest. The digits are always written out in full, never with an exponent.
-/
import SpectrumAsm.Real.Binary64

namespace SpectrumAsm.Real

structure Decimal where
  digits : Nat
  exponent : Int
  deriving Repr

/-- The reals that round to one positive double, scaled by a common denominator: the open interval
from `low / den` to `high / den` around `value / den`, with its ends if `closed`. -/
structure Target where
  low : Nat
  value : Nat
  high : Nat
  den : Nat
  closed : Bool

/-- The interval of a finite positive double. Below a power of two the neighbour is only half as far
away; ends round to the double if its mantissa is even. -/
def target (p : Parts) : Target :=
  let gap := if p.mantissa == 1 <<< 52 && p.exponent > -1074 then 1 else 2
  let scale := 1 <<< (p.exponent - 2).toNat
  let den := 1 <<< (2 - p.exponent).toNat
  ⟨(4 * p.mantissa - gap) * scale, 4 * p.mantissa * scale, (4 * p.mantissa + 2) * scale, den,
    p.mantissa % 2 == 0⟩

def Target.accepts (t : Target) (d : Decimal) : Bool :=
  let up := Nat.pow 10 d.exponent.toNat
  let down := Nat.pow 10 (-d.exponent).toNat
  let x := d.digits * up * t.den
  if t.closed then t.low * down ≤ x && x ≤ t.high * down
  else t.low * down < x && x < t.high * down

/-- The neighbour on the grid `10 ^ exponent` to write, if one of the two reads back: the nearer
one, and the upper one at equal distance. -/
def Target.onGrid (t : Target) (exponent : Int) : Option Decimal :=
  let up := Nat.pow 10 exponent.toNat
  let down := Nat.pow 10 (-exponent).toNat
  let unit := up * t.den
  let scaled := t.value * down
  let floor := scaled / unit
  let below : Decimal := ⟨floor, exponent⟩
  let above : Decimal := ⟨floor + 1, exponent⟩
  match t.accepts below, t.accepts above with
  | true, true => some (if 2 * (scaled % unit) < unit then below else above)
  | true, false => some below
  | false, true => some above
  | false, false => none

def Target.search (t : Target) : Nat → Int → Decimal
  | 0, exponent =>
    ⟨t.value * Nat.pow 10 (-exponent).toNat / (t.den * Nat.pow 10 exponent.toNat), exponent⟩
  | n + 1, exponent => (t.onGrid exponent).getD (t.search n (exponent - 1))

/-- The shortest decimal of a finite positive double. Its leading digit stands at most at the place
of the highest bit, and seventeen digits always suffice. -/
def shortest (p : Parts) : Decimal :=
  let bits : Int := (p.mantissa.log2 : Int) + p.exponent + 1
  let top : Int := if bits ≥ 0 then bits * 30103 / 100000 + 1 else -(-bits * 30102 / 100000) + 1
  (target p).search 25 top

def Decimal.positional (d : Decimal) : String :=
  let ds := Nat.toDigits 10 d.digits
  if d.exponent ≥ 0 then String.ofList (ds ++ List.replicate d.exponent.toNat '0')
  else
    let places := (-d.exponent).toNat
    let padded := List.replicate (places + 1 - ds.length) '0' ++ ds
    let whole := padded.take (padded.length - places)
    let tail := (padded.drop (padded.length - places)).reverse.dropWhile (· == '0')
    if tail.isEmpty then String.ofList whole
    else String.ofList (whole ++ '.' :: tail.reverse)

/-- The text of a double. Whole numbers have no point, zero keeps its sign. -/
def text (x : Float) : String :=
  if x.isNaN then "NaN"
  else
    let sign := if signBit x then "-" else ""
    if !isFinite x then sign ++ "inf"
    else if (parts x).mantissa == 0 then sign ++ "0"
    else sign ++ (shortest (parts x)).positional

end SpectrumAsm.Real
