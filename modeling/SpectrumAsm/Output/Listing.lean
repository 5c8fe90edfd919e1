/-
The listing: eight bytes a line, with the address of the first and the source line that was placed
there.
-/
import SpectrumAsm.Output
import SpectrumAsm.Text.Style

namespace SpectrumAsm.Listing

def rows : Nat → List UInt8 → List (List UInt8)
  | 0, _ => []
  | n + 1, bytes => if bytes.isEmpty then [] else bytes.take 8 :: rows n (bytes.drop 8)

def source (names : Array String) (pos : Option Position) : String :=
  match pos with
  | none => ""
  | some pos =>
    match names[pos.file]? with
    | some name => name ++ ":" ++ toString (pos.line + 1)
    | none => ""

def row (address : Nat) (bytes : List UInt8) (source : String) : String :=
  let hex := " ".intercalate (bytes.map fun b => Text.hexUpper 2 b.toNat)
  Text.styled [.blue] (Text.hexUpper 4 address) ++ " | " ++ Text.padRight 23 hex ++ " | " ++
    Text.styled [.dim] source

def lines (o : Output) : List String :=
  let lineAt := o.lineAt
  o.segments.toList.flatMap fun s =>
    (rows (s.bytes.size + 1) s.bytes.toList).zipIdx.map fun (bytes, i) =>
      let address := s.start.toNat + i * 8
      row address bytes (source o.names lineAt[UInt16.ofNat address]?)

end SpectrumAsm.Listing
