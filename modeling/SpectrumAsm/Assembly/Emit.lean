/-
Putting bytes into segments.

The bytes of an operation or a pragma are first collected, with holes where an expression is not
known yet, and then put into the segment all at once or not at all.
-/
import SpectrumAsm.Assembly.Evaluate
import SpectrumAsm.Instruction.Encode

namespace SpectrumAsm

/-- Bytes, and the expressions to be filled in at offsets among them. -/
structure Code where
  bytes : Array UInt8 := #[]
  holes : List (PatchKind × Nat × Expr) := []

namespace Code

def ofBytes (bytes : List UInt8) : Code := { bytes := bytes.toArray }

def add (c : Code) (bytes : List UInt8) : Code := { c with bytes := c.bytes ++ bytes }

def addHole (c : Code) (kind : PatchKind) (e : Expr) : Code :=
  { c with holes := c.holes ++ [(kind, c.bytes.size, e)] }

end Code

def littleEndian (w : UInt16) : List UInt8 := [w.toUInt8, (w >>> 8).toUInt8]

namespace Assembly

def emit (a : Assembly) (code : Code) : Except Fault Unit × Assembly :=
  if code.bytes.isEmpty then (.ok (), a)
  else
    let a := a.openSegment
    if a.stop + code.bytes.size > memoryEnd then (.error .addressOverflow, a)
    else
      let segment := a.lastSegment
      let base := (a.segments.back?.map (·.bytes.size)).getD 0
      let a := { a with segments := a.segments.modify segment fun s =>
        { s with bytes := s.bytes ++ code.bytes } }
      (.ok (), code.holes.foldl (fun a (kind, offset, e) =>
        a.addPatch kind segment (base + offset) e none) a)

def patchBytes (a : Assembly) (segment offset : Nat) (bytes : List UInt8) : Assembly :=
  { a with segments := a.segments.modify segment fun s => s.patch offset bytes }

end Assembly

def emitCode (code : Code) : Step Unit :=
  Step.of fun a => a.emit code

def emitBytes (bytes : List UInt8) : Step Unit :=
  emitCode (.ofBytes bytes)

def branchByte (target origin : UInt16) : Except Fault UInt8 :=
  match relativeByte target.toNat origin with
  | some b => .ok b
  | none => .error (.relativeJump (branchDistance target.toNat origin))

def addByteOf (code : Code) (e : Expr) : Step Code := do
  match ← evalExpr e with
  | .ready v => return code.add [(← ofExcept v.lowWord).toUInt8]
  | .pending _ => return (code.addHole .byte e).add [0]

def addWordOf (code : Code) (e : Expr) : Step Code := do
  match ← evalExpr e with
  | .ready v => return code.add (littleEndian (← ofExcept v.lowWord))
  | .pending _ => return (code.addHole .word e).add [0, 0]

def addBranch (code : Code) (opcode : UInt8) (target : Expr) : Step Code := do
  match ← evalExpr target with
  | .ready v =>
    let origin := (← get).origin
    let distance ← ofExcept (branchByte (← ofExcept v.lowWord) origin)
    return code.add [opcode, distance]
  | .pending _ => return (code.addHole .branch target).add [opcode, 0]

def addCell (code : Code) : Cell → Step Code
  | .byte b => return code.add [b]
  | .byteOf e => addByteOf code e
  | .wordOf e => addWordOf code e
  | .branch opcode target => addBranch code opcode target

def emitCells (cells : List Cell) : Step Unit := do
  emitCode (← cells.foldlM addCell {})

def emitOperation (m : Cpu.Mnemonic) (operands : List Operand) : Step Unit := do
  let next := (← get).effectiveModel.hasNextOps
  match ← ofExcept (Instruction.encode next m operands) with
  | .cells cells => emitCells cells
  | .choose number cells =>
    let n ← evalInt number
    emitCells (← ofExcept (cells n))

end SpectrumAsm
