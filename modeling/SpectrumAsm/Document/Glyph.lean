/-
The characters of a document with their places.

Every way to end a line but the separators of lines and paragraphs becomes a line feed. The zero character,
which no document may hold, marks the end.
-/
namespace SpectrumAsm.Document

/-- A character with its line, its column in characters and its place in the text in bytes, all
counted from zero. -/
structure Glyph where
  char : Char
  line : Nat
  column : Nat
  offset : Nat
  deriving DecidableEq, Repr

def isBlank (c : Char) : Bool := c == ' ' || c == '\t'

def isBreak (c : Char) : Bool :=
  c == '\n' || c == '\r' || c == '\u0085' || c == '\u2028' || c == '\u2029'

def isEnd (c : Char) : Bool := c == '\x00'

def isLineEnd (c : Char) : Bool := isBreak c || isEnd c

def isIdle (c : Char) : Bool := isBlank c || isLineEnd c

def isNameChar (c : Char) : Bool := c.isAlphanum || c == '_' || c == '-'

def isAllowed (c : Char) : Bool :=
  let n := c.toNat
  c == '\t' || c == '\n' || c == '\r' || (0x20 ≤ n && n ≤ 0x7E) || n == 0x85 ||
    (0xA0 ≤ n && n ≤ 0xFFFD) || 0x10000 ≤ n

def breakChar (c : Char) : Char := if c == '\r' || c == '\u0085' then '\n' else c

/-- The glyphs of a text from a place on. A carriage return and a line feed end one line
together. -/
def glyphsFrom (line column offset : Nat) : List Char → List Glyph
  | [] => [⟨'\x00', line, column, offset⟩]
  | '\r' :: '\n' :: cs => ⟨'\n', line, column, offset⟩ :: glyphsFrom (line + 1) 0 (offset + 2) cs
  | c :: cs =>
    if isBreak c then
      ⟨breakChar c, line, column, offset⟩ :: glyphsFrom (line + 1) 0 (offset + c.utf8Size) cs
    else ⟨c, line, column, offset⟩ :: glyphsFrom line (column + 1) (offset + c.utf8Size) cs

def glyphs (text : String) : List Glyph := glyphsFrom 0 0 0 text.toList

def nextChar : List Glyph → Char
  | [] => '\x00'
  | g :: _ => g.char

def atIdle (gs : List Glyph) : Bool := isIdle (nextChar gs)

/-- The rest of a line passed over: blanks, and a comment if there is one. Anything else is an
error. -/
def afterLine (gs : List Glyph) : Option (List Glyph) :=
  let gs := gs.dropWhile (isBlank ·.char)
  let gs := if nextChar gs == '#' then gs.dropWhile (!isLineEnd ·.char) else gs
  match gs with
  | [] => some []
  | g :: rest =>
    if isBreak g.char then some rest else if isEnd g.char then some (g :: rest) else none

/-- Three times the same character as a word at the start of a line. -/
def isMark (c : Char) : List Glyph → Bool
  | g :: h :: i :: rest =>
    g.column == 0 && g.char == c && h.char == c && i.char == c && atIdle rest
  | _ => false

/-- Three dashes or three dots at the start of a line: here a document starts or ends. -/
def isBoundary (gs : List Glyph) : Bool := isMark '-' gs || isMark '.' gs

end SpectrumAsm.Document
