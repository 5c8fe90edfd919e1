/-
What scalars stand for. Only a scalar without quotes can stand for a number, a truth value or
nothing; one made of lines can if its tag says so.
-/
import SpectrumAsm.Document.Token
import SpectrumAsm.Text.Digits

namespace SpectrumAsm.Document

structure Scalar where
  text : String
  style : Style
  tag : Option Octets
  deriving DecidableEq, Repr

def Scalar.empty : Scalar := ⟨"", .plain, none⟩

def tagBytes (tag : String) : Octets := tag.toUTF8.toList

def coreStem : String := "tag:yaml.org,2002:"

namespace Scalar

def isPlain (s : Scalar) : Bool := s.style == .plain

def hasTag (s : Scalar) (name : String) : Bool := s.tag == some (tagBytes (coreStem ++ name))

def standsFor (s : Scalar) (kind : String) : Bool :=
  s.isPlain || (s.style == .literal && s.hasTag kind)

def radixOf : List Char → Nat × List Char
  | '0' :: 'x' :: cs => (16, cs)
  | '0' :: 'o' :: cs => (8, cs)
  | '0' :: 'b' :: cs => (2, cs)
  | cs => (10, cs)

/-- A number without a sign. In decimal it does not start with a superfluous zero. -/
def magnitude (cs : List Char) : Option Nat :=
  let (radix, digits) := radixOf cs
  if radix == 10 && digits.length > 1 && digits.head? == some '0' then none
  else Text.readNat radix digits

def nat? (limit : Nat) (s : Scalar) : Option Nat :=
  let digits := match s.text.toList with
    | '+' :: cs => cs
    | cs => cs
  if s.standsFor "int" then (magnitude digits).filter (· < limit) else none

def int? (s : Scalar) : Option Int64 :=
  if s.standsFor "int" then
    match s.text.toList with
    | '-' :: cs => ((magnitude cs).filter (· ≤ 1 <<< 63)).map fun n => Int64.ofInt (-(n : Int))
    | '+' :: cs => ((magnitude cs).filter (· < 1 <<< 63)).map Int64.ofNat
    | cs => ((magnitude cs).filter (· < 1 <<< 63)).map Int64.ofNat
  else none

def bool? (s : Scalar) : Option Bool :=
  if !s.standsFor "bool" then none
  else if ["true", "True", "TRUE"].contains s.text then some true
  else if ["false", "False", "FALSE"].contains s.text then some false
  else none

def isNullWord (s : Scalar) : Bool := ["~", "null", "Null", "NULL"].contains s.text

/-- A plain scalar that says nothing or has a word for it, whatever its tag. -/
def isVoid (s : Scalar) : Bool := s.isPlain && (s.text.isEmpty || s.isNullWord)

def ownTag? (s : Scalar) : Option String := do
  match ← s.tag with
  | mark :: name => if mark == 0x21 && !name.isEmpty then String.fromUTF8? ⟨name.toArray⟩ else none
  | [] => none

end Scalar

end SpectrumAsm.Document
