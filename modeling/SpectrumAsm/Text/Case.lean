/-
Full Unicode case conversion of a text: each character is replaced by its upper-case or lower-case
form, which may be longer, and a capital sigma at the end of a word becomes the final small sigma.
-/
import SpectrumAsm.Text.CaseTables

namespace SpectrumAsm.Text

/-- The image of a character under runs and longer forms; a character in neither stands for
itself. -/
def mapCase (runs : List (Nat × Nat × Nat × Int)) (long : List (Nat × List Char)) (c : Char) :
    List Char :=
  let n := c.toNat
  match long.lookup n with
  | some image => image
  | none =>
    match runs.find? fun (first, last, step, _) =>
        first ≤ n && n ≤ last && (n - first) % step == 0 with
    | some (_, _, _, shift) => [Char.ofNat (n + shift).toNat]
    | none => [c]

def upperChar (c : Char) : List Char :=
  if c.toNat < 128 then [c.toUpper] else mapCase upperRuns upperLong c

def lowerChar (c : Char) : List Char :=
  if c.toNat < 128 then [c.toLower] else mapCase lowerRuns lowerLong c

def upper (s : String) : String :=
  String.ofList (s.toList.flatMap upperChar)

/-- The first character that does not merely continue a word is a cased letter. -/
def meetsCased (cs : List Char) : Bool :=
  match cs.dropWhile (inRanges ignorableRanges) with
  | c :: _ => inRanges casedRanges c
  | [] => false

/-- Lower-case form of the characters `cs` that follow `before` (nearest first). -/
def lowerFrom (before : List Char) : List Char → List Char
  | [] => []
  | c :: cs =>
    let image :=
      if c.toNat == 0x3A3 then
        if meetsCased before && !meetsCased cs then [Char.ofNat 0x3C2] else [Char.ofNat 0x3C3]
      else lowerChar c
    image ++ lowerFrom (c :: before) cs

def lower (s : String) : String :=
  String.ofList (lowerFrom [] s.toList)

end SpectrumAsm.Text
