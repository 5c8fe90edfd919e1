/-
Scalars made of lines that are indented more than what they belong to.

A bar keeps the lines, a greater-than sign joins them by blanks, except lines that start with a blank. A minus
sign drops the line end after the last line, a plus sign keeps the empty lines after it, and a digit gives the
indentation.
-/
import SpectrumAsm.Document.Glyph
import SpectrumAsm.Text.Digits

namespace SpectrumAsm.Document

inductive Chomp where
  | strip | clip | keep
  deriving DecidableEq, Repr

def readChomp : List Glyph → Option (Chomp × List Glyph)
  | g :: gs =>
    if g.char == '+' then some (.keep, gs) else if g.char == '-' then some (.strip, gs) else none
  | [] => none

/-- The digit for the indentation, zero if there is none. A zero digit is an error. -/
def readIndent : List Glyph → Option (Nat × List Glyph)
  | g :: gs =>
    match Text.digitValue 10 g.char with
    | some 0 => none
    | some d => some (d, gs)
    | none => some (0, g :: gs)
  | [] => some (0, [])

def readHeader (gs : List Glyph) : Option (Chomp × Nat × List Glyph) := do
  match readChomp gs with
  | some (chomp, gs) =>
    let (indent, gs) ← readIndent gs
    return (chomp, indent, gs)
  | none =>
    let (indent, gs) ← readIndent gs
    if indent == 0 then return (.clip, 0, gs)
    let (chomp, gs) := (readChomp gs).getD (.clip, gs)
    return (chomp, indent, gs)

/-- A place that is still part of the indentation; without a known one every blank is. -/
def inIndent (indent : Nat) (g : Glyph) : Bool := indent == 0 || g.column < indent

/-- The empty lines before the first line: the deepest column in them or of the first line, their
line ends, and the rest. -/
def leadingBreaks (indent deepest : Nat) (breaks : List Char) :
    List Glyph → Option (Nat × List Char × List Glyph)
  | [] => some (deepest, breaks, [])
  | g :: gs =>
    if g.char == ' ' && inIndent indent g then leadingBreaks indent deepest breaks gs
    else if g.char == '\t' && inIndent indent g then none
    else if isBreak g.char then
      leadingBreaks indent (max deepest g.column) (breaks ++ [g.char]) gs
    else some (max deepest g.column, breaks, g :: gs)

/-- Lines read so far: their text, last character first; the end of the last line, if it has one; the ends of
empty lines after it; and whether it started with a blank. -/
structure LinesState where
  read : List Char := []
  lineEnd : List Char := []
  empty : List Char := []
  blankStart : Bool := false

namespace LinesState

def startLine (folded : Bool) (s : LinesState) (c : Char) : LinesState :=
  let joined := folded && s.lineEnd.head? == some '\n' && !s.blankStart && !isBlank c
  let between := if joined then (if s.empty.isEmpty then [' '] else []) else s.lineEnd
  { read := c :: ((between ++ s.empty).reverse ++ s.read), blankStart := isBlank c }

def text (s : LinesState) (chomp : Chomp) : List Char :=
  s.read.reverse ++
    (match chomp with
    | .strip => []
    | .clip => s.lineEnd
    | .keep => s.lineEnd ++ s.empty)

end LinesState

/-- The lines from here on that are indented by `indent`, and what follows them; `inLine` tells
whether a line has started. -/
def linesFrom (folded : Bool) (indent : Nat) (inLine : Bool) (s : LinesState) :
    List Glyph → Option (LinesState × List Glyph)
  | [] => some (s, [])
  | g :: gs =>
    if inLine then
      if isEnd g.char then some (s, g :: gs)
      else if isBreak g.char then linesFrom folded indent false { s with lineEnd := [g.char] } gs
      else linesFrom folded indent true { s with read := g.char :: s.read } gs
    else if g.char == ' ' && g.column < indent then linesFrom folded indent false s gs
    else if g.char == '\t' && g.column < indent then none
    else if isBreak g.char then
      linesFrom folded indent false { s with empty := s.empty ++ [g.char] } gs
    else if g.column == indent && !isEnd g.char then
      linesFrom folded indent true (s.startLine folded g.char) gs
    else some (s, g :: gs)

/-- A scalar of lines after its sign, where what it belongs to is indented by one less than `least`;
with what follows it. -/
def lines (folded : Bool) (least : Nat) (gs : List Glyph) : Option (String × List Glyph) := do
  let (chomp, digit, gs) ← readHeader gs
  let gs ← afterLine gs
  let fixed := if digit == 0 then 0 else least - 1 + digit
  let (deepest, empty, gs) ← leadingBreaks fixed 0 [] gs
  let indent := if fixed == 0 then max (max deepest least) 1 else fixed
  let (s, rest) ← linesFrom folded indent false { empty := empty } gs
  return (String.ofList (s.text chomp), rest)

end SpectrumAsm.Document
