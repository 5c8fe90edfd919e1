/-
Conditions of jumps, calls and returns.
-/
import SpectrumAsm.Cpu.Name

namespace SpectrumAsm.Cpu

inductive Condition where
  | nz | z | nc | c | po | pe | p | m
  deriving DecidableEq, Repr

namespace Condition

def code : Condition → UInt8
  | nz => 0 | z => 1 | nc => 2 | c => 3 | po => 4 | pe => 5 | p => 6 | m => 7

def all : List Condition := [nz, z, nc, c, po, pe, p, m]

def ofCode (n : UInt8) : Condition := (all.find? (·.code == n)).getD nz

def name : Condition → String
  | nz => "NZ" | z => "Z" | nc => "NC" | c => "C" | po => "PO" | pe => "PE" | p => "P" | m => "M"

def parse (word : String) : Except UnknownName Condition :=
  lookupName .condition (all.map fun r => (r.name, r)) (Text.upcase word) word

def isRelative (r : Condition) : Bool := r.code < 4

end Condition

end SpectrumAsm.Cpu
