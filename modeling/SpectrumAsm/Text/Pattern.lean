/-
Bit patterns drawn with characters: blanks, dots, dashes and underscores are zeros, everything else
is a one. The first character is the highest bit of the first byte.
-/
import SpectrumAsm.Text

namespace SpectrumAsm.Text

def patternBit (c : Char) : Bool :=
  !(c == ' ' || c == '.' || c == '-' || c == '_')

def bitsValue (bits : List Bool) : Nat :=
  bits.foldl (fun n b => n * 2 + if b then 1 else 0) 0

/-- The bytes that bits write, eight at a time; `n` bounds their number. -/
def packBits : Nat → List Bool → List UInt8
  | 0, _ => []
  | n + 1, bits =>
    if bits.isEmpty then [] else UInt8.ofNat (bitsValue (bits.take 8)) :: packBits n (bits.drop 8)

def padding (bits : List Bool) : List Bool :=
  List.replicate ((8 - bits.length % 8) % 8) false

def packLeft (bits : List Bool) : List UInt8 :=
  packBits (bits.length + 1) (bits ++ padding bits)

def packRight (bits : List Bool) : List UInt8 :=
  packBits (bits.length + 1) (padding bits ++ bits)

def patternBytes (pattern : String) : List UInt8 :=
  packLeft ((trimChars pattern.toList).map patternBit)

/-- The bytes of a pattern whose blanks only divide it; a leading `<` or `>` says at which side it
is aligned. -/
def alignedPatternBytes (pattern : String) : List UInt8 :=
  let bits (cs : List Char) := (cs.filter (· != ' ')).map patternBit
  match trimChars pattern.toList with
  | '<' :: cs => packLeft (bits cs)
  | '>' :: cs => packRight (bits cs)
  | cs => packLeft (bits cs)

end SpectrumAsm.Text
