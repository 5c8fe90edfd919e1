/-
Operands of operations and of macro invocations.
-/
import SpectrumAsm.Cpu.Condition
import SpectrumAsm.Cpu.Register
import SpectrumAsm.Expr

namespace SpectrumAsm

open SpectrumAsm.Cpu

inductive Sign where
  | plus | minus
  deriving DecidableEq, Repr

def Sign.text : Sign → String
  | plus => "+" | minus => "-"

/-- Operands. A lone register or condition name is that register or condition; parentheses around
the whole operand make it an indirection. -/
inductive Operand where
  | reg8 (reg : Reg8)
  | halfIndex (reg : HalfIndex)
  | special (reg : Special)
  | pair (reg : Pair)
  | index (reg : Index)
  | af
  | afAlt
  | viaPair (reg : Pair)
  | portC
  | indexed (reg : Index) (displacement : Option (Sign × Expr))
  | memory (e : Expr)
  | cond (cc : Condition)
  | expr (e : Expr)
  | param (name : String)
  deriving Repr

namespace Operand

def shown : Operand → String
  | reg8 reg => reg.name
  | halfIndex reg => reg.name
  | special reg => reg.name
  | pair reg => reg.name
  | index reg => reg.name
  | af => "AF"
  | afAlt => "AF'"
  | viaPair reg => "(" ++ reg.name ++ ")"
  | portC => "(C)"
  | indexed reg none => "(" ++ reg.name ++ ")"
  | indexed reg (some (sign, e)) => "(" ++ reg.name ++ sign.text ++ e.shown ++ ")"
  | memory e => "(" ++ e.shown ++ ")"
  | cond cc => cc.name
  | expr e => e.shown
  | param name => "\x7b\x7b" ++ name ++ "\x7d\x7d"

def ofName? (name : String) : Option Operand :=
  if Text.sameName name "af'" then some .afAlt
  else if Text.sameName name "af" then some .af
  else
    match Reg8.parse name, HalfIndex.parse name, Special.parse name with
    | .ok reg, _, _ => some (.reg8 reg)
    | _, .ok reg, _ => some (.halfIndex reg)
    | _, _, .ok reg => some (.special reg)
    | _, _, _ =>
      match Pair.parse name, Index.parse name, Condition.parse name with
      | .ok reg, _, _ => some (.pair reg)
      | _, .ok reg, _ => some (.index reg)
      | _, _, .ok cc => some (.cond cc)
      | _, _, _ => none

end Operand

end SpectrumAsm
