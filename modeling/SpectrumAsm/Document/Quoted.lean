/-
Scalars in quotes. Between single quotes only a doubled quote is special; between double quotes a
backslash introduces a character by a letter or by its number, or hides the end of a line.
-/
import SpectrumAsm.Document.Gap
import SpectrumAsm.Text.Digits

namespace SpectrumAsm.Document

def escapes : List (Char × Char) :=
  [('0', '\x00'), ('a', '\x07'), ('b', '\x08'), ('t', '\t'), ('\t', '\t'), ('n', '\n'),
    ('v', '\x0b'), ('f', '\x0c'), ('r', '\r'), ('e', '\x1b'), (' ', ' '), ('\x22', '\x22'),
    ('/', '/'), ('\\', '\\'), ('N', '\u0085'), ('_', '\u00a0'), ('L', '\u2028'), ('P', '\u2029')]

def escapeDigits : List (Char × Nat) := [('x', 2), ('u', 4), ('U', 8)]

def charOf? (n : Nat) : Option Char :=
  if n.isValidChar then some (Char.ofNat n) else none

/-- Where reading stands: among characters, in a gap, after a quote that may be doubled, after a
backslash, or before some digits of a character. -/
inductive QuoteState where
  | text
  | gap (g : Gap)
  | quote
  | escape
  | digits (left value : Nat)

/-- The state after one character among characters, and what it adds; `none` as the state is the end
of the scalar. -/
def quoteStep (double : Bool) (c : Char) : List Char × Option QuoteState :=
  if isBlank c || isBreak c then ([], some (.gap (Gap.add {} c)))
  else if double && c == '\x22' then ([], none)
  else if double && c == '\\' then ([], some .escape)
  else if !double && c == '\x27' then ([], some .quote)
  else ([c], some .text)

def escapeStep (c : Char) : Option (List Char × QuoteState) :=
  if isBreak c then some ([], .gap .afterHidden)
  else
    match escapes.lookup c, escapeDigits.lookup c with
    | some d, _ => some ([d], .text)
    | none, some width => some ([], .digits width 0)
    | none, none => none

/-- The rest of a scalar in quotes, and what follows it. The characters read so far are in `read`,
the last one first. -/
def quotedFrom (double : Bool) :
    QuoteState → List Char → List Glyph → Option (List Char × List Glyph)
  | _, _, [] => none
  | .text, read, g :: gs =>
    if isEnd g.char then none
    else
      match quoteStep double g.char with
      | (_, none) => some (read.reverse, gs)
      | (more, some state) => quotedFrom double state (more ++ read) gs
  | .gap gap, read, g :: gs =>
    if isBlank g.char || isBreak g.char then quotedFrom double (.gap (gap.add g.char)) read gs
    else if isEnd g.char || isBoundary (g :: gs) then none
    else
      match quoteStep double g.char with
      | (_, none) => some ((gap.text.reverse ++ read).reverse, gs)
      | (more, some state) => quotedFrom double state (more ++ (gap.text.reverse ++ read)) gs
  | .quote, read, g :: gs =>
    if g.char == '\x27' then quotedFrom double .text ('\x27' :: read) gs
    else some (read.reverse, g :: gs)
  | .escape, read, g :: gs => do
    let (more, state) ← escapeStep g.char
    quotedFrom double state (more ++ read) gs
  | .digits left value, read, g :: gs => do
    let d ← Text.digitValue 16 g.char
    if left ≤ 1 then quotedFrom double .text ((← charOf? (value * 16 + d)) :: read) gs
    else quotedFrom double (.digits (left - 1) (value * 16 + d)) read gs

def quoted (double : Bool) (gs : List Glyph) : Option (String × List Glyph) :=
  (quotedFrom double .text [] gs).map fun (text, rest) => (String.ofList text, rest)

end SpectrumAsm.Document
