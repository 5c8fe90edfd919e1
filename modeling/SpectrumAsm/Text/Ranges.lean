/-
Ranges of characters, in ascending order, each by its gap from the last character of the range before it, and
its span from its first character to its last.
-/
namespace SpectrumAsm.Text

def words (s : String) : List String := (s.splitToList Char.isWhitespace).filter (!·.isEmpty)

def numbers (s : String) : List Int := (words s).filterMap String.toInt?

/-- Ranges behind a character, from their gaps and spans by turns. -/
def rangesAfter (last : Nat) : List Int → List (Nat × Nat)
  | gap :: span :: rest =>
    let first := last + gap.toNat
    (first, first + span.toNat) :: rangesAfter (first + span.toNat) rest
  | _ => []

/-- The same with two more numbers that belong to each range. -/
def runsAfter (last : Nat) : List Int → List (Nat × Nat × Nat × Int)
  | gap :: span :: step :: shift :: rest =>
    let first := last + gap.toNat
    (first, first + span.toNat, step.toNat, shift) :: runsAfter (first + span.toNat) rest
  | _ => []

/-- A run that leads back from the images of a run. -/
def turned : Nat × Nat × Nat × Int → Nat × Nat × Nat × Int
  | (first, last, step, shift) => ((first + shift).toNat, (last + shift).toNat, step, -shift)

/-- Characters whose image is longer than one character, each in a word before its image. -/
def longForms (s : String) : List (Nat × List Char) :=
  (words s).filterMap fun word => word.toList.head?.map fun c => (c.toNat, word.toList.tail)

def inRanges (ranges : List (Nat × Nat)) (c : Char) : Bool :=
  ranges.any fun (first, last) => first ≤ c.toNat && c.toNat ≤ last

end SpectrumAsm.Text
