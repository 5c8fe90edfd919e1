/-
Models of the ZX Spectrum a program can be built for.
-/
import SpectrumAsm.Cpu.Name

namespace SpectrumAsm.Cpu

inductive Model where
  | spectrum48 | spectrum128 | spectrumP3 | next
  deriving DecidableEq, Repr

namespace Model

def code : Model → UInt8
  | spectrum48 => 0 | spectrum128 => 1 | spectrumP3 => 2 | next => 3

def ofCode (n : UInt8) : Model :=
  if n == 1 then spectrum128 else if n == 2 then spectrumP3 else if n == 3 then next else spectrum48

def name : Model → String
  | spectrum48 => "SPECTRUM48"
  | spectrum128 => "SPECTRUM128"
  | spectrumP3 => "SPECTRUMP3"
  | next => "NEXT"

def spellings : List (String × Model) :=
  [("SPECTRUM48", spectrum48), ("48", spectrum48), ("SPECTRUM128", spectrum128),
    ("128", spectrum128), ("SPECTRUMP3", spectrumP3), ("P3", spectrumP3), ("NEXT", next)]

def parse (word : String) : Except UnknownName Model :=
  lookupName .model spellings (Text.upcase word) word

def hasNextOps (m : Model) : Bool := m == next

end Model

end SpectrumAsm.Cpu
