/-
The symbol map: symbols, segments and entry addresses as a YAML document. Its texts have double quotes around
them, the usual short escapes inside, and the number of every character that could not be seen.
-/
import SpectrumAsm.Output
import SpectrumAsm.Text.HiddenTables

namespace SpectrumAsm

namespace Text

def quoteChar (c : Char) : List Char :=
  if c == '\x00' then ['\\', '0']
  else if c == '\t' then ['\\', 't']
  else if c == '\r' then ['\\', 'r']
  else if c == '\n' then ['\\', 'n']
  else if c == '\\' || c == '\x22' then ['\\', c]
  else if inRanges hiddenRanges c then
    ['\\', 'u', '\x7b'] ++ Nat.toDigits 16 c.toNat ++ ['\x7d']
  else [c]

def quoted (s : String) : String :=
  String.ofList ('\x22' :: s.toList.flatMap quoteChar ++ ['\x22'])

end Text

def SymbolKind.name : SymbolKind → String
  | label => "Label"
  | equ => "Equ"
  | var => "Var"
  | structField => "StructField"

namespace SymbolMap

def hex (n : Nat) : String := "0x" ++ Text.hexLower 1 n

def value : Option Value → String
  | some (.int n) => if 0 ≤ n then hex n.toInt.toNat else toString n.toInt
  | some (.str s) => Text.quoted s
  | some v => v.shown
  | none => "~"

def symbol (name : String) (s : Symbol) : List String :=
  ["  " ++ name ++ ":", "    kind: " ++ s.kind.name, "    value: " ++ value s.value]

def segment (s : Segment) : List String :=
  ["  - start: " ++ hex s.start.toNat, "    length: " ++ hex s.bytes.size]

def entry (key : String) (address : Option UInt16) : String :=
  key ++ ": " ++ match address with
    | some a => hex a.toNat
    | none => "~"

def lines (o : Output) : List String :=
  let symbols := o.symbols.entries.flatMap fun (name, s) => symbol name s
  let segments := o.segments.toList.flatMap segment
  ["symbols:"] ++ (if symbols.isEmpty then ["  \x7b\x7d"] else symbols) ++
    ["segments:"] ++ (if segments.isEmpty then ["  []"] else segments) ++
    [entry "entry" o.entry, entry "export_entry" o.exportEntry]

def text (o : Output) : String :=
  String.join ((lines o).map (· ++ "\n"))

end SymbolMap

end SpectrumAsm
