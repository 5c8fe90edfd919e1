/-
The tokens of a document.

Indentation is turned into tokens: a list or map starts where a dash or a key stands further to the right than
what it belongs to, and ends where something stands further to the left. A key that shows only at the colon
behind it gets its tokens afterwards; it ends on its line and has at most 1024 bytes.
-/
import SpectrumAsm.Document.Lines
import SpectrumAsm.Document.Plain
import SpectrumAsm.Document.Quoted
import SpectrumAsm.Document.Tag

namespace SpectrumAsm.Document

/-- Something that may be a key: whether it has to be one, the number of its first token, and its
place. -/
structure KeyCandidate where
  required : Bool
  slot : Nat
  place : Glyph
  deriving Repr

def maxKey : Nat := 1024

def KeyCandidate.isStale (k : KeyCandidate) (here : Glyph) : Bool :=
  k.place.line < here.line || k.place.offset + maxKey < here.offset

/-- Where reading stands. Each slot holds a token, and before it the tokens that a key got
afterwards. -/
structure Reading where
  slots : Array (List Token) := #[]
  candidate : Option KeyCandidate := none
  outer : List (Option KeyCandidate) := []
  keyAllowed : Bool := true
  /-- the columns of the lists and maps that started by indentation, innermost first -/
  columns : List Nat := []

namespace Reading

def flow (r : Reading) : Bool := !r.outer.isEmpty

def least (r : Reading) : Nat := (r.columns.head?.map (· + 1)).getD 0

def push (r : Reading) (t : Token) : Reading := { r with slots := r.slots.push [t] }

def dropKey (r : Reading) : Option Reading :=
  if r.candidate.any (·.required) then none else some { r with candidate := none }

def dropStale (r : Reading) (here : Glyph) : Option Reading :=
  let stale (k : Option KeyCandidate) := k.any (·.isStale here)
  if (r.candidate :: r.outer).any fun k => stale k && k.any (·.required) then none
  else
    let fresh (k : Option KeyCandidate) := k.filter fun k => !k.isStale here
    some { r with candidate := fresh r.candidate, outer := r.outer.map fresh }

/-- What comes next as a candidate, if a key may start here. In the column of a map it has to be a
key. -/
def noteKey (r : Reading) (here : Glyph) : Option Reading :=
  if r.keyAllowed then do
    let r ← r.dropKey
    let required := !r.flow && r.columns.head? == some here.column
    return { r with candidate := some ⟨required, r.slots.size, here⟩ }
  else some r

def opensAt (r : Reading) (column : Nat) : Bool := !r.flow && r.least ≤ column

def openBlock (r : Reading) (column : Nat) (start : Token) : Reading :=
  if r.opensAt column then { r.push start with columns := column :: r.columns } else r

def closeWhile (r : Reading) (p : Nat → Bool) : Reading :=
  if r.flow then r
  else
    let ended := r.columns.takeWhile p
    { ended.foldl (fun r _ => r.push .blockEnd) r with columns := r.columns.dropWhile p }

def closeBlocks (r : Reading) (column : Nat) : Reading := r.closeWhile (column < ·)

def closeAll (r : Reading) : Reading := r.closeWhile fun _ => true

def makeKey (r : Reading) (k : KeyCandidate) : Reading :=
  let column := k.place.column
  let opens := r.opensAt column
  { r with
    slots := r.slots.modify k.slot ((if opens then [.mapStart, .key] else [.key]) ++ ·)
    columns := if opens then column :: r.columns else r.columns
    candidate := none }

/-! ## One token -/

def boundary (r : Reading) (t : Token) : Option Reading := do
  let r ← r.closeAll.dropKey
  return { r.push t with keyAllowed := false }

def openFlow (r : Reading) (here : Glyph) (t : Token) : Option Reading := do
  let r ← r.noteKey here
  return { r.push t with candidate := none, outer := r.candidate :: r.outer, keyAllowed := true }

def closeFlow (r : Reading) (t : Token) : Option Reading := do
  let r ← r.dropKey
  return { r.push t with
    candidate := r.outer.head?.getD none, outer := r.outer.tail, keyAllowed := false }

def comma (r : Reading) : Option Reading := do
  let r ← r.dropKey
  return { r.push .comma with keyAllowed := true }

def dash (r : Reading) (here : Glyph) : Option Reading := do
  if !r.flow && !r.keyAllowed then none
  let r ← (r.openBlock here.column .listStart).dropKey
  return { r.push .dash with keyAllowed := true }

def question (r : Reading) (here : Glyph) : Option Reading := do
  if !r.flow && !r.keyAllowed then none
  let r ← (r.openBlock here.column .mapStart).dropKey
  return { r.push .key with keyAllowed := !r.flow }

def colon (r : Reading) (here : Glyph) : Option Reading :=
  match r.candidate with
  | some k => some { (r.makeKey k).push .value with keyAllowed := false }
  | none =>
    if !r.flow && !r.keyAllowed then none
    else
      let r := r.openBlock here.column .mapStart
      some { r.push .value with keyAllowed := !r.flow }

def word (r : Reading) (here : Glyph) (t : Token) : Option Reading := do
  let r ← r.noteKey here
  return { r.push t with keyAllowed := false }

def name (gs : List Glyph) : Option (String × List Glyph) :=
  let name := (gs.takeWhile (isNameChar ·.char)).map (·.char)
  let rest := gs.dropWhile (isNameChar ·.char)
  if !name.isEmpty &&
      (atIdle rest || ['?', ':', ',', ']', '\x7d', '%', '@', '\x60'].contains (nextChar rest)) then
    some (String.ofList name, rest)
  else none

def blockScalar (r : Reading) (style : Style) (gs : List Glyph) :
    Option (Reading × List Glyph) := do
  let r ← r.dropKey
  let (text, rest) ← lines (style == .folded) r.least gs
  return ({ r.push (.scalar style text) with keyAllowed := true }, rest)

def quotedScalar (r : Reading) (style : Style) (here : Glyph) (gs : List Glyph) :
    Option (Reading × List Glyph) := do
  let (text, rest) ← quoted (style == .doubleQuoted) gs
  return (← r.word here (.scalar style text), rest)

/-- A plain scalar that starts at a glyph. After it a key may start if a line ended there. -/
def plainScalar (r : Reading) (here : Glyph) (gs : List Glyph) : Option (Reading × List Glyph) := do
  let (text, broken, rest) ← plain r.flow r.least (here :: gs)
  let r ← r.word here (.scalar .plain text)
  return ({ r with keyAllowed := broken }, rest)

def step (r : Reading) (here : Glyph) (gs : List Glyph) : Option (Reading × List Glyph) :=
  let alone (r : Option Reading) : Option (Reading × List Glyph) := r.map fun r => (r, gs)
  let c := here.char
  if here.column == 0 && c == '%' then do
    let (t, rest) ← readDirective gs
    return (← r.boundary t, rest)
  else if isMark '-' (here :: gs) then (r.boundary .documentStart).map fun r => (r, gs.drop 2)
  else if isMark '.' (here :: gs) then (r.boundary .documentEnd).map fun r => (r, gs.drop 2)
  else if c == '[' then alone (r.openFlow here .openList)
  else if c == '\x7b' then alone (r.openFlow here .openMap)
  else if c == ']' then alone (r.closeFlow .closeList)
  else if c == '\x7d' then alone (r.closeFlow .closeMap)
  else if c == ',' then alone r.comma
  else if c == '-' && atIdle gs then alone (r.dash here)
  else if c == '?' && (r.flow || atIdle gs) then alone (r.question here)
  else if c == ':' && (r.flow || atIdle gs) then alone (r.colon here)
  else if c == '*' then do
    let (name, rest) ← name gs
    return (← r.word here (.alias name), rest)
  else if c == '&' then do
    let (name, rest) ← name gs
    return (← r.word here (.anchor name), rest)
  else if c == '!' then do
    let (t, rest) ← readTag r.flow gs
    return (← r.word here t, rest)
  else if c == '|' && !r.flow then r.blockScalar .literal gs
  else if c == '>' && !r.flow then r.blockScalar .folded gs
  else if c == '\x27' then r.quotedScalar .singleQuoted here gs
  else if c == '\x22' then r.quotedScalar .doubleQuoted here gs
  else if startsPlain r.flow (here :: gs) then r.plainScalar here gs
  else none

end Reading

/-! ## All tokens -/

/-- Blanks, comments and line ends passed over, and whether a key may start after them. A tab is a blank only
where no key may start; a line may start with a byte order mark. -/
def skipIdle (flow allowed comment : Bool) : List Glyph → Bool × List Glyph
  | [] => (allowed, [])
  | g :: gs =>
    if isBreak g.char then skipIdle flow (allowed || !flow) false gs
    else if isEnd g.char then (allowed, g :: gs)
    else if comment then skipIdle flow allowed true gs
    else if g.char == ' ' || (g.char == '\t' && (flow || !allowed)) then
      skipIdle flow allowed false gs
    else if g.char == '#' then skipIdle flow allowed true gs
    else if g.column == 0 && g.char == '\ufeff' then skipIdle flow allowed false gs
    else (allowed, g :: gs)

/-- The tokens from here on, at most `n` of them besides those of indentation and keys. -/
def tokensFrom : Nat → Reading → List Glyph → Option (List Token)
  | 0, _, _ => none
  | n + 1, r, gs =>
    match skipIdle r.flow r.keyAllowed false gs with
    | (_, []) => none
    | (allowed, g :: gs) => do
      let r ← { r with keyAllowed := allowed }.dropStale g
      let r := r.closeBlocks g.column
      if isEnd g.char then
        let r ← r.closeAll.dropKey
        return (r.push .textEnd).slots.toList.flatten
      let (r, gs) ← r.step g gs
      tokensFrom n r gs

def tokens (text : String) : Option (List Token) :=
  if text.toList.all isAllowed then
    let gs := glyphs text
    tokensFrom gs.length {} gs
  else none

end SpectrumAsm.Document
