/-
Pragmas that put data into segments.
-/
import SpectrumAsm.Assembly.Emit
import SpectrumAsm.Text.Pattern

namespace SpectrumAsm

/-- The number of units of a fill, if there is room for them. Negative counts are none. -/
def Assembly.fillCount (a : Assembly) (count : Int64) (unit : Nat) : Except Fault Nat :=
  let n := count.toInt.toNat
  if n * unit > memoryEnd - a.stop then .error .addressOverflow else .ok n

def fillCount (count : Int64) (unit : Nat) : Step Nat := do
  ofExcept ((← get).fillCount count unit)

def lowByte (n : Int64) : UInt8 := n.toUInt64.toUInt8

def lowWord (n : Int64) : UInt16 := n.toUInt64.toUInt16

def emitValues (add : Code → Expr → Step Code) (es : List Expr) : Step Unit := do
  emitCode (← es.foldlM add {})

/-- The bytes of a message. Escapes work in literals; in other texts each character is a byte. -/
def messageOf (e : Expr) : Step (List UInt8) :=
  match e with
  | .text raw => return Text.messageBytes raw
  | e => do
    match ← evalNow e with
    | .str s => return s.toList.map Text.charByte
    | _ => throw .defmString

def markLast (bytes : List UInt8) : List UInt8 :=
  match bytes.getLast? with
  | some b => bytes.dropLast ++ [b ||| 0x80]
  | none => []

/-- The bytes of pairs of hexadecimal digits. The first place of a pair may hold a plus sign. -/
def hexPairs : List Char → Option (List UInt8)
  | [] => some []
  | c :: d :: rest => do
    let b ← Text.readBounded 16 256 (String.ofList [c, d])
    return UInt8.ofNat b :: (← hexPairs rest)
  | [_] => none

def hexOf (e : Expr) : Step (List UInt8) := do
  match ← evalNow e with
  | .str s =>
    match hexPairs s.toList with
    | some bytes => return bytes
    | none => throw .defhDigits
  | _ => throw .defhString

def patternOf (bytes : String → List UInt8) (e : Expr) : Step (List UInt8) := do
  match ← evalNow e with
  | .str pattern =>
    if (Text.trimChars pattern.toList).isEmpty then throw .emptyPattern
    else return bytes pattern
  | _ => throw .stringExpected

def repeatWord (n : Nat) (w : UInt16) : List UInt8 :=
  (List.replicate n (littleEndian w)).flatten

def emitFill (count : Int64) (b : UInt8) : Step Unit := do
  emitBytes (List.replicate (← fillCount count 1) b)

def skipOf (target : Expr) (fill : Option Expr) : Step (Int64 × UInt8) := do
  let target ← evalInt target
  let current := (← get).address
  if target.toInt < current.toNat then throw (.skipBackwards (lowWord target) current)
  let fill ← match fill with
    | some e => do pure (lowByte (← evalInt e))
    | none => pure 0xFF
  return (target - Int64.ofNat current.toNat, fill)

def emitSkip (target : Expr) (fill : Option Expr) : Step Unit := do
  let (count, b) ← skipOf target fill
  emitFill count b

def emitAlign (e : Option Expr) : Step Unit := do
  let alignment ← match e with
    | some e => do
      let n ← evalInt e
      if 1 ≤ n ∧ n ≤ 0x4000 then pure n.toInt.toNat else throw (.alignValue n)
    | none => pure 0x100
  let current := (← get).address.toNat
  emitBytes (List.replicate ((alignment - current % alignment) % alignment) 0)

/-- A whole number that may not be negative and may not come from a real. -/
def evalSize (e : Expr) (negative : Fault) : Step Nat := do
  let v ← evalNow e
  match v.integer? with
  | some n => if n < 0 then throw negative else return n.toInt.toNat
  | none => throw .integralExpected

def Assembly.pathOf (a : Assembly) (name : String) : String :=
  match a.setup.dirs[a.pos.file]? with
  | some (some dir) => Path.join dir name
  | _ => name

/-- The bytes of a file from an offset on, up to its end or as many as are wanted. -/
def filePart (name : String) (offset : Nat) (length : Option Nat) : Step (List UInt8) := do
  let a ← get
  let path := a.pathOf name
  match a.setup.tree.read path with
  | .error reason => throw (.includeBinOpen path reason.message)
  | .ok contents =>
    if contents.size ≤ offset then throw .includeBinOffset
    let length := length.getD (contents.size - offset)
    if contents.size < offset + length then throw .includeBinLength
    return (contents.extract offset (offset + length)).data.toList

def fileOf (file : Expr) (offset length : Option Expr) : Step (List UInt8) := do
  let name ← match ← evalNow file with
    | .str name => pure name
    | _ => throw .stringExpected
  let offset ← match offset with
    | some e => evalSize e .includeBinOffset
    | none => pure 0
  let length ← match length with
    | some e => do pure (some (← evalSize e .includeBinLength))
    | none => pure none
  filePart name offset length

/-- The bytes of a file may not reach the last address, as labels see it. -/
def emitFile (file : Expr) (offset length : Option Expr) : Step Unit := do
  let bytes ← fileOf file offset length
  if memoryEnd ≤ (← get).address.toNat + bytes.length then throw .includeBinOverflow
  emitBytes bytes

end SpectrumAsm
