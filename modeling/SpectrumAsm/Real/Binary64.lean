/-
Double precision numbers taken apart into a whole number and a power of two, and put together again
by rounding to the nearest. All arithmetic between the two ends is exact.
-/
namespace SpectrumAsm.Real

/-- A finite number as mantissa and exponent: its absolute value is `mantissa * 2 ^ exponent`. -/
structure Parts where
  negative : Bool
  mantissa : Nat
  exponent : Int
  deriving Repr

def field (x : Float) : Nat := (x.toBits >>> 52).toNat % 2048

def fraction (x : Float) : Nat := x.toBits.toNat % (1 <<< 52)

def signBit (x : Float) : Bool := x.toBits >>> 63 == 1

/-- Taking a finite number apart. Subnormal numbers have no leading one. -/
def parts (x : Float) : Parts :=
  if field x == 0 then ⟨signBit x, fraction x, -1074⟩
  else ⟨signBit x, 1 <<< 52 + fraction x, (field x : Int) - 1075⟩

/-- The number `mantissa * 2 ^ exponent` for a mantissa of at most 2 ^ 53 and an exponent that no
longer mantissa could lower; too large a number is infinity. -/
def assemble (negative : Bool) (mantissa : Nat) (exponent : Int) : Float :=
  let magnitude :=
    if mantissa < 1 <<< 52 then mantissa
    else ((exponent + 1074) * (1 <<< 52 : Nat) + mantissa).toNat
  let bounded := min magnitude (2047 <<< 52)
  Float.ofBits (UInt64.ofNat (if negative then 1 <<< 63 + bounded else bounded))

/-- The quotient `num / den` rounded to a whole number, a half going to the even neighbour. -/
def roundQuotient (num den : Nat) : Nat :=
  let q := num / den
  let r := num % den
  if 2 * r > den || (2 * r == den && q % 2 == 1) then q + 1 else q

def nearest (negative : Bool) (num den : Nat) : Float :=
  if num == 0 then assemble negative 0 (-1074)
  else
    let guess : Int := (num.log2 : Int) - den.log2
    let below := if guess ≥ 0 then num < den <<< guess.toNat else num <<< (-guess).toNat < den
    let exponent := max ((if below then guess - 1 else guess) - 52) (-1074)
    let mantissa :=
      if exponent ≥ 0 then roundQuotient num (den <<< exponent.toNat)
      else roundQuotient (num <<< (-exponent).toNat) den
    assemble negative mantissa exponent

/-- The double nearest to `digits * 10 ^ exponent`. Numbers far outside the range of doubles are
settled by their count of digits alone. -/
def ofDecimal (digits : Nat) (exponent : Int) : Float :=
  let size : Int := (Nat.toDigits 10 digits).length + exponent
  if digits == 0 || size < -330 then assemble false 0 (-1074)
  else if size > 330 then assemble false (1 <<< 53) 971
  else if exponent ≥ 0 then nearest false (digits * Nat.pow 10 exponent.toNat) 1
  else nearest false digits (Nat.pow 10 (-exponent).toNat)

def isFinite (x : Float) : Bool := field x != 2047

def truncate (x : Float) : Float :=
  if x < 0.0 then x.ceil else x.floor

/-- Remainder of the division truncated toward zero; it has the sign of the dividend and is
exact. -/
def remainder (x y : Float) : Float :=
  if !isFinite x || y.isNaN || y == 0.0 then 0.0 / 0.0
  else if !isFinite y then x
  else
    let a := parts x
    let b := parts y
    let low := min a.exponent b.exponent
    let num := a.mantissa <<< (a.exponent - low).toNat
    let rest := num % (b.mantissa <<< (b.exponent - low).toNat)
    if low ≥ 0 then nearest a.negative (rest <<< low.toNat) 1
    else nearest a.negative rest (1 <<< (-low).toNat)

end SpectrumAsm.Real
