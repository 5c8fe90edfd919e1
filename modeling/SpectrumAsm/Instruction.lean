/-
Machine code before its expressions are known.

The cells of an instruction fix its length: what an expression turns out to be changes bytes, never their
number. A number inside an opcode has to be known before the cells are.
-/
import SpectrumAsm.Cpu.Register
import SpectrumAsm.Expr
import SpectrumAsm.Fault

namespace SpectrumAsm

inductive Cell where
  | byte (b : UInt8)
  | byteOf (e : Expr)
  | wordOf (e : Expr)
  | branch (opcode : UInt8) (target : Expr)
  deriving Repr

def Cell.size : Cell → Nat
  | byte _ | byteOf _ => 1
  | wordOf _ | branch _ _ => 2

inductive Instruction where
  | cells (cs : List Cell)
  /-- cells that depend on a number -/
  | choose (number : Expr) (cells : Int64 → Except Fault (List Cell))

end SpectrumAsm
