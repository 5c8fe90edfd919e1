/-
The words of a command line: switches with their values, and the input file.

The value of a switch is the next word, or follows an equals sign or the letter of the switch; letters without
values can share a word. Words after two dashes are input files.
-/
import SpectrumAsm.Text.Digits

namespace SpectrumAsm

inductive Switch where
  | input | output | config | symbols | dump | model | define | maxLoopErrors | explicitLocals
  | start
  deriving DecidableEq, Repr

namespace Switch

def letters : List (Char × Switch) :=
  [('o', output), ('c', config), ('s', symbols), ('d', dump), ('D', define)]

def names : List (String × Switch) :=
  [("output", output), ("config", config), ("symbols", symbols), ("dump", dump), ("model", model),
    ("define", define), ("max-loop-errors", maxLoopErrors), ("explicit-locals", explicitLocals),
    ("start", start)]

def hasValue : Switch → Bool
  | dump | explicitLocals => false
  | _ => true

def isRepeatable : Switch → Bool
  | define => true
  | _ => false

end Switch

structure CommandLine where
  input : String := "main.asm"
  output : String := "main.bin"
  config : Option String := none
  symbols : Option String := none
  dump : Bool := false
  model : Option String := none
  defines : List String := []
  maxLoopErrors : Option Nat := none
  explicitLocals : Bool := false
  start : Option UInt16 := none
  deriving DecidableEq, Repr

namespace CommandLine

/-! ## Words -/

/-- The letters of a word from the first on, and the switch that still waits for its value. -/
def readLetters : List Char → Option (List (Switch × String) × Option Switch)
  | [] => some ([], none)
  | c :: cs => do
    let s ← Switch.letters.lookup c
    if !s.hasValue then
      let (more, pending) ← readLetters cs
      return ((s, "") :: more, pending)
    match cs with
    | [] => return ([], some s)
    | '=' :: value => return ([(s, String.ofList value)], none)
    | value => return ([(s, String.ofList value)], none)

def readName (cs : List Char) : Option (List (Switch × String) × Option Switch) := do
  let s ← Switch.names.lookup (String.ofList (cs.takeWhile (· != '=')))
  match s.hasValue, cs.dropWhile (· != '=') with
  | true, [] => return ([], some s)
  | true, _ :: value => return ([(s, String.ofList value)], none)
  | false, [] => return ([(s, "")], none)
  | false, _ => none

/-- What the words say, in order. A switch that waits for its value takes no word that looks like a
switch. -/
def readWords : Option Switch → List String → Option (List (Switch × String))
  | none, [] => some []
  | some _, [] => none
  | pending, word :: words => do
    match word.toList with
    | '-' :: c :: cs =>
      if pending.isSome then failure
      if c != '-' then
        let (here, pending) ← readLetters (c :: cs)
        return here ++ (← readWords pending words)
      else if cs.isEmpty then return words.map fun w => (.input, w)
      else
        let (here, pending) ← readName cs
        return here ++ (← readWords pending words)
    | _ => return (pending.getD .input, word) :: (← readWords none words)

/-! ## Values -/

/-- An address: hexadecimal after `0x`, `#` or `$`, else decimal. -/
def readAddress (value : String) : Option UInt16 :=
  let n := match value.toList with
    | '0' :: 'x' :: cs => Text.readBounded 16 0x10000 (String.ofList cs)
    | '#' :: cs => Text.readBounded 16 0x10000 (String.ofList cs)
    | '$' :: cs => Text.readBounded 16 0x10000 (String.ofList cs)
    | cs => Text.readBounded 10 0x10000 (String.ofList cs)
  n.map UInt16.ofNat

def put (line : CommandLine) (said : Switch × String) : Option CommandLine :=
  let (s, value) := said
  match s with
  | .input => some { line with input := value }
  | .output => some { line with output := value }
  | .config => some { line with config := some value }
  | .symbols => some { line with symbols := some value }
  | .dump => some { line with dump := true }
  | .model => some { line with model := some value }
  | .define => some { line with defines := line.defines ++ [value] }
  | .maxLoopErrors =>
    (Text.readBounded 10 (1 <<< 64) value).map fun n => { line with maxLoopErrors := some n }
  | .explicitLocals => some { line with explicitLocals := true }
  | .start => (readAddress value).map fun a => { line with start := some a }

def parse (words : List String) : Option CommandLine := do
  let said ← readWords none words
  if decide ((said.map Prod.fst).filter fun s => !s.isRepeatable).Nodup then said.foldlM put {}
  else none

end CommandLine

end SpectrumAsm
