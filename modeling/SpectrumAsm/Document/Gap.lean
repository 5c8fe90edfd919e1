/-
What stands between two words of a scalar, and what becomes of it.

A line end becomes one blank, and blanks around it vanish; if empty lines follow, each becomes a line feed and
the first line end vanishes.
-/
import SpectrumAsm.Document.Glyph

namespace SpectrumAsm.Document

/-- Blanks and line ends in a row: the blanks as long as no line has ended, the first line end
unless it does not count, and the further ones. -/
structure Gap where
  blanks : List Char := []
  broken : Bool := false
  first : Option Char := none
  more : List Char := []
  deriving Repr

namespace Gap

def afterHidden : Gap := { broken := true }

def addBlank (g : Gap) (c : Char) : Gap :=
  if g.broken then g else { g with blanks := g.blanks ++ [c] }

def addBreak (g : Gap) (c : Char) : Gap :=
  if g.broken then { g with more := g.more ++ [c] } else { broken := true, first := some c }

def add (g : Gap) (c : Char) : Gap :=
  if isBlank c then g.addBlank c else g.addBreak c

def text (g : Gap) : List Char :=
  if g.broken then
    match g.first with
    | some '\n' => if g.more.isEmpty then [' '] else g.more
    | some c => c :: g.more
    | none => g.more
  else g.blanks

end Gap

end SpectrumAsm.Document
