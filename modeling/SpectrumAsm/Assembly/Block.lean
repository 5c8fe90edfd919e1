/-
The shape of blocks: which line closes a block, and how a choice is cut into sections.
-/
import SpectrumAsm.Statement

namespace SpectrumAsm

def SourceLine.opens (line : SourceLine) : Option Block := line.stmt.bind Stmt.opens

def SourceLine.closes (line : SourceLine) : Option Block := line.stmt.bind Stmt.closes

/-- The lines of a block, its closing line, and the lines after it. `inner` are the blocks open inside,
innermost first; a closing line of none of these blocks belongs to the body. -/
def splitBlock (block : Block) (inner : List Block) :
    List SourceLine → Option (List SourceLine × SourceLine × List SourceLine)
  | [] => none
  | line :: lines =>
    let further (inner : List Block) :=
      (splitBlock block inner lines).map fun (body, close, rest) => (line :: body, close, rest)
    match line.opens with
    | some opened => further (opened :: inner)
    | none =>
      match line.closes with
      | none => further inner
      | some closed =>
        match inner with
        | top :: outer => further (if top == closed then outer else inner)
        | [] => if closed == block then some ([], line, lines) else further []

/-- A section of a choice: the line that heads it, what that line says, and the lines up to the next
section. -/
structure Section where
  line : SourceLine
  header : Statement
  body : List SourceLine

def SourceLine.sectionHeader? (line : SourceLine) : Option Statement :=
  match line.stmt with
  | some (.statement (.elseIf e)) => some (.elseIf e)
  | some (.statement .otherwise) => some .otherwise
  | _ => none

/-- The lines of a choice before its first section, and its sections. `depth` is the number of
blocks open around the first line; sections inside these belong to them. -/
def cutSections : Nat → List SourceLine → List SourceLine × List Section
  | _, [] => ([], [])
  | depth, line :: lines =>
    let plain (depth : Nat) : List SourceLine × List Section :=
      let (body, sections) := cutSections depth lines
      (line :: body, sections)
    if line.opens.isSome then plain (depth + 1)
    else if line.closes.isSome then plain (depth - 1)
    else
      match line.sectionHeader?, depth with
      | some header, 0 =>
        let (body, sections) := cutSections 0 lines
        ([], { line, header, body } :: sections)
      | _, depth => plain depth

def Section.title (s : Section) : String :=
  match s.header with
  | .otherwise => "ELSE"
  | _ => "ELIF"

end SpectrumAsm
