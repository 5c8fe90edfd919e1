/-
Texts: names, blanks, lines.

Names are compared without regard to the case of the letters A to Z; all other characters count as they are.
Blanks are what Unicode gives the property White_Space. A line ends at a line feed, together with a carriage
return right before it; a text that ends with a line feed has no further, empty line.
-/
namespace SpectrumAsm.Text

/-! ## Names -/

def upcase (s : String) : String :=
  String.ofList (s.toList.map Char.toUpper)

def downcase (s : String) : String :=
  String.ofList (s.toList.map Char.toLower)

def sameName (s t : String) : Bool :=
  upcase s == upcase t

/-! ## Blanks -/

def isBlank (c : Char) : Bool :=
  let n := c.toNat
  (9 ≤ n && n ≤ 13) || n == 0x20 || n == 0x85 || n == 0xA0 || n == 0x1680 ||
    (0x2000 ≤ n && n ≤ 0x200A) || n == 0x2028 || n == 0x2029 || n == 0x202F || n == 0x205F ||
    n == 0x3000

def trimChars (cs : List Char) : List Char :=
  ((cs.dropWhile isBlank).reverse.dropWhile isBlank).reverse

def trim (s : String) : String :=
  String.ofList (trimChars s.toList)

/-! ## Lines -/

/-- The lines of `cs` when the characters `read` (last one first) already belong to the first. -/
def linesFrom (read : List Char) : List Char → List (List Char)
  | [] => if read.isEmpty then [] else [read.reverse]
  | '\n' :: cs =>
    let line := match read with
      | '\r' :: before => before
      | _ => read
    line.reverse :: linesFrom [] cs
  | c :: cs => linesFrom (c :: read) cs

def lines (s : String) : List String :=
  (linesFrom [] s.toList).map String.ofList

end SpectrumAsm.Text
