/-
The generator behind random numbers: a shift register of 64 bits that never reaches zero.
-/
namespace SpectrumAsm

structure Random where
  state : UInt64
  deriving DecidableEq, Repr

namespace Random

/-- A generator for a seed. The lowest bit is set because zero would stay zero. -/
def ofSeed (seed : UInt64) : Random := ⟨(seed * 0x9E3779B97F4A7C15) ||| 1⟩

def step (x : UInt64) : UInt64 :=
  let x := x ^^^ (x <<< 13)
  let x := x ^^^ (x >>> 7)
  x ^^^ (x <<< 17)

def next64 (g : Random) : UInt64 × Random :=
  let x := step g.state
  (x, ⟨x⟩)

def next32 (g : Random) : UInt32 × Random :=
  let (x, g) := g.next64
  ((x >>> 32).toUInt32, g)

def range (g : Random) (lo hi : Int64) : Int64 × Random :=
  let (x, g) := g.next64
  let span := ((hi.toInt - lo.toInt + 1) % (1 <<< 128 : Nat)).toNat
  (Int64.ofInt (lo.toInt + (x.toNat % span : Nat)), g)

end Random

end SpectrumAsm
