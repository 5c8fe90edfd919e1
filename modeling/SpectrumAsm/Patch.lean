/-
Bytes and symbols that wait for an expression.

A patch remembers where its value goes, and the scope, module, address and line its expression was written
under.
-/
import SpectrumAsm.SymbolTable

namespace SpectrumAsm

inductive PatchKind where
  | branch
  | byte
  | word
  | equ
  | entry
  | exportEntry
  | fieldByte
  | fieldWord
  deriving DecidableEq, Repr

namespace PatchKind

def span : PatchKind → Nat
  | word | fieldWord => 2
  | branch | byte | fieldByte => 1
  | equ | entry | exportEntry => 0

def inField : PatchKind → PatchKind
  | byte => fieldByte
  | word => fieldWord
  | kind => kind

end PatchKind

/-- An expression that waits for its symbols. The offset is that of the byte to fill, for a branch
that of its opcode. -/
structure Patch where
  kind : PatchKind
  segment : Nat
  offset : Nat
  expr : Expr
  target : Option (Slot × String)
  scope : Option Nat
  module : Nat
  origin : UInt16
  pos : Position
  deriving Repr

def Patch.touches (p : Patch) (segment start stop : Nat) : Bool :=
  p.segment == segment && p.offset < stop && start < p.offset + p.kind.span

/-- The distance from the byte after a branch at `address` to its target. -/
def branchDistance (target : Int) (address : UInt16) : Int :=
  target - (address.toNat + 2)

def relativeByte (target : Int) (address : UInt16) : Option UInt8 :=
  let distance := branchDistance target address
  if -128 ≤ distance ∧ distance ≤ 127 then some (UInt8.ofInt distance) else none

end SpectrumAsm
