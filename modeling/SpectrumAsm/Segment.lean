/-
Runs of bytes at consecutive addresses. The code of a segment may be meant to run elsewhere: with a
displacement, labels and `$` name the addresses there.
-/
namespace SpectrumAsm

structure Segment where
  start : UInt16
  displacement : Option Int32 := none
  bytes : Array UInt8 := #[]
  deriving DecidableEq, Repr

/-- One more than the highest address. -/
def memoryEnd : Nat := 0x10000

namespace Segment

/-- The address just behind the last byte, displacement apart. -/
def stop (s : Segment) : Nat := s.start.toNat + s.bytes.size

/-- The address of an offset, displacement included, before it is cut to sixteen bits. -/
def addressAt (s : Segment) (offset : Nat) : Int :=
  s.start.toNat + (s.displacement.getD 0).toInt + offset

def wordAt (s : Segment) (offset : Nat) : UInt16 := UInt16.ofInt (s.addressAt offset)

def here (s : Segment) : UInt16 := s.wordAt s.bytes.size

/-- Overwriting bytes from an offset on, if all of them exist. -/
def patch (s : Segment) (offset : Nat) (bytes : List UInt8) : Segment :=
  if offset + bytes.length ≤ s.bytes.size then
    { s with bytes := (bytes.zipIdx offset).foldl (fun a (b, i) => a.setIfInBounds i b) s.bytes }
  else s

end Segment

end SpectrumAsm
