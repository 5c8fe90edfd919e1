/-
Placeholders in texts: a name between double braces, with blanks around it or not.
-/
import SpectrumAsm.Text

namespace SpectrumAsm.Expansion

def breakAtPair (mark : Char) : List Char → Option (List Char × List Char)
  | a :: b :: cs =>
    if a == mark && b == mark then some ([], cs)
    else (breakAtPair mark (b :: cs)).map fun (before, after) => (a :: before, after)
  | _ => none

def placeholdersFrom : Nat → List Char → List String
  | 0, _ => []
  | n + 1, cs =>
    match breakAtPair '\x7b' cs with
    | none => []
    | some (_, cs) =>
      match breakAtPair '\x7d' cs with
      | none => []
      | some (name, rest) => String.ofList (Text.trimChars name) :: placeholdersFrom n rest

/-- The names of the placeholders of a text, in order of appearance. A placeholder takes at least
four characters. -/
def placeholders (text : String) : List String :=
  placeholdersFrom text.length text.toList

def replaceFrom (old new : List Char) : Nat → List Char → List Char
  | 0, cs => cs
  | _ + 1, [] => []
  | n + 1, c :: cs =>
    if old.isPrefixOf (c :: cs) then new ++ replaceFrom old new n ((c :: cs).drop old.length)
    else c :: replaceFrom old new n cs

/-- A text with all occurrences of a non-empty part replaced, from left to right. -/
def replaceAll (text old new : String) : String :=
  String.ofList (replaceFrom old.toList new.toList (text.length + 1) text.toList)

def placeholderText (name : String) : String := "\x7b\x7b" ++ name ++ "\x7d\x7d"

end SpectrumAsm.Expansion
