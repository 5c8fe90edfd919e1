/-
Registers of the Z80. Every register that appears in an opcode field has its number there; the
halves of the index registers and the two special registers are selected by other means.
-/
import SpectrumAsm.Cpu.Name

namespace SpectrumAsm.Cpu

inductive Reg8 where
  | b | c | d | e | h | l | a
  deriving DecidableEq, Repr

inductive Pair where
  | bc | de | hl | sp
  deriving DecidableEq, Repr

inductive Index where
  | ix | iy
  deriving DecidableEq, Repr

inductive HalfIndex where
  | xh | xl | yh | yl
  deriving DecidableEq, Repr

inductive Special where
  | i | r
  deriving DecidableEq, Repr

namespace Reg8

/-- Number in the three-bit register field. Six is the place of `(HL)`. -/
def code : Reg8 → UInt8
  | b => 0 | c => 1 | d => 2 | e => 3 | h => 4 | l => 5 | a => 7

/-- The register with a number; the accumulator for numbers that name none. -/
def ofCode (n : UInt8) : Reg8 :=
  ([b, c, d, e, h, l, a].find? (·.code == n)).getD a

def name : Reg8 → String
  | b => "B" | c => "C" | d => "D" | e => "E" | h => "H" | l => "L" | a => "A"

def parse (word : String) : Except UnknownName Reg8 :=
  lookupName .reg8 ([b, c, d, e, h, l, a].map fun r => (r.name, r)) (Text.upcase word) word

end Reg8

namespace Pair

def code : Pair → UInt8
  | bc => 0 | de => 1 | hl => 2 | sp => 3

def ofCode (n : UInt8) : Pair :=
  ([bc, de, hl, sp].find? (·.code == n)).getD bc

def name : Pair → String
  | bc => "BC" | de => "DE" | hl => "HL" | sp => "SP"

def parse (word : String) : Except UnknownName Pair :=
  lookupName .pair ([bc, de, hl, sp].map fun r => (r.name, r)) (Text.upcase word) word

end Pair

namespace Index

def lead : Index → UInt8
  | ix => 0xDD | iy => 0xFD

def ofCode (n : UInt8) : Index := if n == 1 then iy else ix

def name : Index → String
  | ix => "IX" | iy => "IY"

def parse (word : String) : Except UnknownName Index :=
  lookupName .index ([ix, iy].map fun r => (r.name, r)) (Text.upcase word) word

end Index

namespace HalfIndex

def owner : HalfIndex → Index
  | xh | xl => .ix
  | yh | yl => .iy

def isLow : HalfIndex → Bool
  | xl | yl => true
  | xh | yh => false

def lowBit (r : HalfIndex) : UInt8 := if r.isLow then 1 else 0

def ofCode (n : UInt8) : HalfIndex :=
  if n == 1 then xl else if n == 2 then yh else if n == 3 then yl else xh

def name : HalfIndex → String
  | xh => "XH" | xl => "XL" | yh => "YH" | yl => "YL"

def spellings : List (String × HalfIndex) :=
  [("XH", xh), ("IXH", xh), ("HX", xh), ("XL", xl), ("IXL", xl), ("LX", xl),
    ("YH", yh), ("IYH", yh), ("HY", yh), ("YL", yl), ("IYL", yl), ("LY", yl)]

def parse (word : String) : Except UnknownName HalfIndex :=
  lookupName .halfIndex spellings (Text.upcase word) word

end HalfIndex

namespace Special

def code : Special → UInt8
  | i => 0 | r => 1

def ofCode (n : UInt8) : Special := if n == 1 then r else i

def name : Special → String
  | i => "I" | r => "R"

def parse (word : String) : Except UnknownName Special :=
  lookupName .special [("I", i), ("R", r)] (Text.upcase word) word

end Special

end SpectrumAsm.Cpu
