/-
Scalars without quotes. They end at a colon before a blank, at a comment, at a line that is not
indented enough, and between brackets at the marks of lists and maps.
-/
import SpectrumAsm.Document.Gap

namespace SpectrumAsm.Document

def flowMarks : List Char := [',', '[', ']', '\x7b', '\x7d']

def reserved : List Char :=
  flowMarks ++ ['#', '&', '*', '!', '|', '>', '\x27', '\x22', '%', '@', '\x60']

/-- Whether a plain scalar can start here; `flow` tells whether brackets are open. -/
def startsPlain (flow : Bool) : List Glyph → Bool
  | [] => false
  | g :: gs =>
    if g.char == '-' then !isBlank (nextChar gs)
    else if g.char == '?' || g.char == ':' then !flow && !atIdle gs
    else !isIdle g.char && !reserved.contains g.char

/-- A colon between brackets that can neither belong to a plain scalar nor end it. -/
def isStrayColon (flow : Bool) (c : Char) (gs : List Glyph) : Bool :=
  flow && c == ':' && ('?' :: flowMarks).contains (nextChar gs)

def endsPlain (flow : Bool) (c : Char) (gs : List Glyph) : Bool :=
  (c == ':' && atIdle gs) || (flow && flowMarks.contains c)

/-- A place after a gap where a plain scalar does not go on: a line that is indented by less than
`limit`, a comment, or the boundary of a document. -/
def stopsAfterGap (flow : Bool) (limit : Nat) : List Glyph → Bool
  | [] => true
  | g :: gs => (!flow && g.column < limit) || isBoundary (g :: gs) || g.char == '#'

/-- The rest of a plain scalar after the characters in `read`, the last one first, and `gap`. The answer also
tells whether a line ended after the scalar. -/
def plainFrom (flow : Bool) (limit : Nat) (read : List Char) (gap : Option Gap) :
    List Glyph → Option (List Char × Bool × List Glyph)
  | [] => some (read.reverse, false, [])
  | g :: gs =>
    let broken := gap.any (·.broken)
    let stop := some (read.reverse, broken, g :: gs)
    if isEnd g.char then stop
    else if isBlank g.char || isBreak g.char then
      if broken && g.char == '\t' && g.column < limit then none
      else plainFrom flow limit read (some ((gap.getD {}).add g.char)) gs
    else if gap.isSome && stopsAfterGap flow limit (g :: gs) then stop
    else if isStrayColon flow g.char gs then none
    else if endsPlain flow g.char gs then stop
    else
      let between := (gap.map (·.text)).getD []
      plainFrom flow limit (g.char :: (between.reverse ++ read)) none gs

def plain (flow : Bool) (limit : Nat) (gs : List Glyph) : Option (String × Bool × List Glyph) :=
  (plainFrom flow limit [] none gs).map fun (text, broken, rest) =>
    (String.ofList text, broken, rest)

end SpectrumAsm.Document
