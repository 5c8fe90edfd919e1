/-
What an assembly leaves behind.
-/
import SpectrumAsm.Assembly
import Std.Data.TreeMap

namespace SpectrumAsm

open SpectrumAsm.Cpu

structure Output where
  diagnostics : Array Diagnostic := #[]
  segments : Array Segment := #[]
  symbols : NameTable Symbol := {}
  entry : Option UInt16 := none
  exportEntry : Option UInt16 := none
  placed : Array (UInt16 × Position) := #[]
  names : Array String := #[]
  model : Option Model := none
  trace : Array String := #[]
  overrun : Bool := false

namespace Output

def bytes (o : Output) : List UInt8 :=
  o.segments.toList.flatMap fun s => s.bytes.toList

def lineAt (o : Output) : Std.TreeMap UInt16 Position :=
  o.placed.foldl (fun map (address, pos) => map.insert address pos) {}

/-- One more operation for the list of addresses: an address that has not been listed yet comes with
the line last placed there. -/
def listAddress (s : Array (UInt16 × Position) × Std.TreeMap UInt16 Position)
    (placed : UInt16 × Position) : Array (UInt16 × Position) × Std.TreeMap UInt16 Position :=
  match s.2[placed.1]? with
  | some pos => (s.1.push (placed.1, pos), s.2.erase placed.1)
  | none => s

/-- The addresses of operations in the order of their first use, each with the line last placed
there. -/
def sourceMap (o : Output) : List (UInt16 × Position) :=
  (o.placed.foldl listAddress (#[], o.lineAt)).1.toList

/-- The lines of operations in the order of their first use, each with all of its addresses. -/
def addressMap (o : Output) : List (Position × List UInt16) :=
  let placed := o.placed.toList
  (distinct (placed.map (·.2))).map fun pos =>
    (pos, (placed.filter (·.2 == pos)).map (·.1))

end Output

end SpectrumAsm
