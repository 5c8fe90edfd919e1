/-
Machine code read back.

An instruction whose expressions are known is a mnemonic with arguments (`Ground`). `disassemble` reads one
from the front of bytes, by the fields of its opcode. An instruction with several spellings (`Alias`) is read
in one of them (`normal`).
-/
import SpectrumAsm.Assembly.Emit

namespace SpectrumAsm

open SpectrumAsm.Cpu

/-! ## Instructions with known operands -/

/-- A number as far as it goes into code. -/
inductive Immediate where
  /-- a value modulo 256 -/
  | byte (b : UInt8)
  /-- a value modulo 65536 -/
  | word (w : UInt16)
  /-- the distance of a relative branch -/
  | distance (d : UInt8)
  /-- a number inside an opcode, as a whole -/
  | number (n : Int64)
  deriving DecidableEq, Repr

inductive Argument where
  | reg8 (reg : Reg8)
  | halfIndex (reg : HalfIndex)
  | special (reg : Special)
  | pair (reg : Pair)
  | index (reg : Index)
  | af
  | afAlt
  | viaPair (reg : Pair)
  | portC
  | indexed (reg : Index) (displacement : UInt8)
  | memory (address : Immediate)
  | cond (cc : Condition)
  | value (n : Immediate)
  /-- the flags as the target of an input -/
  | flags
  deriving DecidableEq, Repr

abbrev Ground := Mnemonic × List Argument

/-- A second spelling of an instruction: the accumulator can be named where it is the only target, likewise
the flags as the target of an input and the factors of a multiplication, and `c` in front of a jump may be a
register or a condition. -/
inductive Alias : Ground → Ground → Prop where
  | accumulator {m : Mnemonic} (hm : m ∈ [.sub, .and, .xor, .or, .cp]) (x : Argument) :
    Alias (m, [.reg8 .a, x]) (m, [x])
  | flags : Alias (.inp, [.flags, .portC]) (.inp, [.portC])
  | factors : Alias (.mul, [.reg8 .d, .reg8 .e]) (.mul, [])
  | carry {m : Mnemonic} (hm : m ∈ [.jp, .jr, .call]) (x : Argument) :
    Alias (m, [.reg8 .c, x]) (m, [.cond .c, x])
  | carryReturn : Alias (.ret, [.reg8 .c]) (.ret, [.cond .c])

/-- One form for all spellings of an instruction. -/
def normal : Ground → Ground
  | (.sub, [.reg8 .a, x]) => (.sub, [x])
  | (.and, [.reg8 .a, x]) => (.and, [x])
  | (.xor, [.reg8 .a, x]) => (.xor, [x])
  | (.or, [.reg8 .a, x]) => (.or, [x])
  | (.cp, [.reg8 .a, x]) => (.cp, [x])
  | (.inp, [.flags, .portC]) => (.inp, [.portC])
  | (.mul, [.reg8 .d, .reg8 .e]) => (.mul, [])
  | (.jp, [.reg8 .c, x]) => (.jp, [.cond .c, x])
  | (.jr, [.reg8 .c, x]) => (.jr, [.cond .c, x])
  | (.call, [.reg8 .c, x]) => (.call, [.cond .c, x])
  | (.ret, [.reg8 .c]) => (.ret, [.cond .c])
  | i => i

theorem normal_spelling (i : Ground) : normal i = i ∨ Alias i (normal i) := by
  unfold normal
  split
  iterate 5 exact .inr (.accumulator (by simp) _)
  · exact .inr .flags
  · exact .inr .factors
  iterate 3 exact .inr (.carry (by simp) _)
  · exact .inr .carryReturn
  · exact .inl rfl

/-! ## Opcodes -/

namespace Opcode

def high (b : UInt8) : UInt8 := b >>> 6

/-- Bits 3 to 5 of an opcode. -/
def middle (b : UInt8) : UInt8 := (b >>> 3) &&& 7

def low (b : UInt8) : UInt8 := b &&& 7

/-- The register pair in bits 4 and 5. -/
def pair (b : UInt8) : Pair := .ofCode (middle b >>> 1)

/-- Bit 3, which tells apart the two instructions of a row on register pairs. -/
def isSecond (b : UInt8) : Bool := middle b &&& 1 == 1

end Opcode

open Opcode

/-- What a three-bit field names: a register or the byte at `HL`. -/
def fieldArgument (n : UInt8) : Argument := if n == 6 then .viaPair .hl else .reg8 (.ofCode n)

/-- What a three-bit field names behind the lead byte of an index register, displacements apart. -/
def halfArgument (reg : Index) (n : UInt8) : Argument :=
  match reg, n.toNat with
  | .ix, 4 => .halfIndex .xh
  | .ix, 5 => .halfIndex .xl
  | .iy, 4 => .halfIndex .yh
  | .iy, 5 => .halfIndex .yl
  | _, _ => .reg8 (.ofCode n)

def aluGround (op : AluOp) (x : Argument) : Ground :=
  match op with
  | .add => (.add, [.reg8 .a, x])
  | .adc => (.adc, [.reg8 .a, x])
  | .sub => (.sub, [x])
  | .sbc => (.sbc, [.reg8 .a, x])
  | .and => (.and, [x])
  | .xor => (.xor, [x])
  | .or => (.or, [x])
  | .cp => (.cp, [x])

def bitGround (b : UInt8) (args : List Argument) : Ground :=
  let number : Argument := .value (.number (Int64.ofNat (middle b).toNat))
  match (high b).toNat with
  | 0 =>
    match ShiftOp.ofCode (middle b) with
    | .rlc => (.rlc, args)
    | .rrc => (.rrc, args)
    | .rl => (.rl, args)
    | .rr => (.rr, args)
    | .sla => (.sla, args)
    | .sra => (.sra, args)
    | .sll => (.sll, args)
    | .srl => (.srl, args)
  | 1 => (.testBit, number :: args)
  | 2 => (.resBit, number :: args)
  | _ => (.setBit, number :: args)

/-! ## The disassembler -/

abbrev Reading := Option (Ground × List UInt8)

def wordOfBytes (lo hi : UInt8) : UInt16 := UInt16.ofNat (lo.toNat + 0x100 * hi.toNat)

def takeByte (f : UInt8 → Ground) : List UInt8 → Reading
  | b :: rest => some (f b, rest)
  | [] => none

def takeWord (f : UInt16 → Ground) : List UInt8 → Reading
  | lo :: hi :: rest => some (f (wordOfBytes lo hi), rest)
  | _ => none

def takePlain (code : UInt16) (rest : List UInt8) : Reading :=
  (Mnemonic.ofPlainOpcode code).map fun m => ((m, []), rest)

def mainPage (b : UInt8) (rest : List UInt8) : Reading :=
  let field := fieldArgument (middle b)
  let pair := Opcode.pair b
  let cc : Argument := .cond (.ofCode (middle b))
  match (high b).toNat, (middle b).toNat, (low b).toNat with
  | 0, 0, 0 => takePlain b.toUInt16 rest
  | 0, 1, 0 => some ((.ex, [.af, .afAlt]), rest)
  | 0, 2, 0 => takeByte (fun d => (.djnz, [.value (.distance d)])) rest
  | 0, 3, 0 => takeByte (fun d => (.jr, [.value (.distance d)])) rest
  | 0, _, 0 =>
    takeByte (fun d => (.jr, [.cond (.ofCode (middle b - 4)), .value (.distance d)])) rest
  | 0, _, 1 =>
    if isSecond b then some ((.add, [.pair .hl, .pair pair]), rest)
    else takeWord (fun w => (.ld, [.pair pair, .value (.word w)])) rest
  | 0, 0, 2 => some ((.ld, [.viaPair .bc, .reg8 .a]), rest)
  | 0, 1, 2 => some ((.ld, [.reg8 .a, .viaPair .bc]), rest)
  | 0, 2, 2 => some ((.ld, [.viaPair .de, .reg8 .a]), rest)
  | 0, 3, 2 => some ((.ld, [.reg8 .a, .viaPair .de]), rest)
  | 0, 4, 2 => takeWord (fun w => (.ld, [.memory (.word w), .pair .hl])) rest
  | 0, 5, 2 => takeWord (fun w => (.ld, [.pair .hl, .memory (.word w)])) rest
  | 0, 6, 2 => takeWord (fun w => (.ld, [.memory (.word w), .reg8 .a])) rest
  | 0, _, 2 => takeWord (fun w => (.ld, [.reg8 .a, .memory (.word w)])) rest
  | 0, _, 3 => some ((if isSecond b then .dec else .inc, [.pair pair]), rest)
  | 0, _, 4 => some ((.inc, [field]), rest)
  | 0, _, 5 => some ((.dec, [field]), rest)
  | 0, _, 6 => takeByte (fun n => (.ld, [field, .value (.byte n)])) rest
  | 1, 6, 6 => takePlain b.toUInt16 rest
  | 1, _, _ => some ((.ld, [field, fieldArgument (low b)]), rest)
  | 2, _, _ => some (aluGround (.ofCode (middle b)) (fieldArgument (low b)), rest)
  | 3, _, 0 => some ((.ret, [cc]), rest)
  | 3, 1, 1 => some ((.ret, []), rest)
  | 3, 5, 1 => some ((.jp, [.viaPair .hl]), rest)
  | 3, 6, 1 => some ((.pop, [.af]), rest)
  | 3, 7, 1 => some ((.ld, [.pair .sp, .pair .hl]), rest)
  | 3, 3, 1 => takePlain b.toUInt16 rest
  | 3, _, 1 => some ((.pop, [.pair pair]), rest)
  | 3, _, 2 => takeWord (fun w => (.jp, [cc, .value (.word w)])) rest
  | 3, 0, 3 => takeWord (fun w => (.jp, [.value (.word w)])) rest
  | 3, 2, 3 => takeByte (fun n => (.out, [.memory (.byte n), .reg8 .a])) rest
  | 3, 3, 3 => takeByte (fun n => (.inp, [.reg8 .a, .memory (.byte n)])) rest
  | 3, 4, 3 => some ((.ex, [.viaPair .sp, .pair .hl]), rest)
  | 3, 5, 3 => some ((.ex, [.pair .de, .pair .hl]), rest)
  | 3, _, 4 => takeWord (fun w => (.call, [cc, .value (.word w)])) rest
  | 3, 1, 5 => takeWord (fun w => (.call, [.value (.word w)])) rest
  | 3, 6, 5 => some ((.push, [.af]), rest)
  | 3, _, 5 => some ((.push, [.pair pair]), rest)
  | 3, _, 6 => takeByte (fun n => aluGround (.ofCode (middle b)) (.value (.byte n))) rest
  | 3, _, 7 =>
    some ((.rst, [.value (.number (Int64.ofNat (8 * (middle b).toNat)))]), rest)
  | _, _, _ => takePlain b.toUInt16 rest

def extendedPage (b : UInt8) (rest : List UInt8) : Reading :=
  let pair := Opcode.pair b
  match (high b).toNat, (middle b).toNat, (low b).toNat with
  | 0, 4, 4 => some ((.mirror, [.reg8 .a]), rest)
  | 0, 4, 6 => some ((.mirror, [.pair .de]), rest)
  | 0, 4, 7 => takeByte (fun n => (.test, [.value (.byte n)])) rest
  | 0, 6, 1 => some ((.add, [.pair .hl, .reg8 .a]), rest)
  | 0, 6, 2 => some ((.add, [.pair .de, .reg8 .a]), rest)
  | 0, 6, 3 => some ((.add, [.pair .bc, .reg8 .a]), rest)
  | 0, 6, 4 => takeWord (fun w => (.add, [.pair .hl, .value (.word w)])) rest
  | 0, 6, 5 => takeWord (fun w => (.add, [.pair .de, .value (.word w)])) rest
  | 0, 6, 6 => takeWord (fun w => (.add, [.pair .bc, .value (.word w)])) rest
  | 1, 6, 0 => some ((.inp, [.portC]), rest)
  | 1, _, 0 => some ((.inp, [fieldArgument (middle b), .portC]), rest)
  | 1, 6, 1 => some ((.out, [.portC, .value (.number 0)]), rest)
  | 1, _, 1 => some ((.out, [.portC, fieldArgument (middle b)]), rest)
  | 1, _, 2 => some ((if isSecond b then .adc else .sbc, [.pair .hl, .pair pair]), rest)
  | 1, _, 3 =>
    if isSecond b then takeWord (fun w => (.ld, [.pair pair, .memory (.word w)])) rest
    else takeWord (fun w => (.ld, [.memory (.word w), .pair pair])) rest
  | 1, 0, 6 => some ((.im, [.value (.number 0)]), rest)
  | 1, 2, 6 => some ((.im, [.value (.number 1)]), rest)
  | 1, 3, 6 => some ((.im, [.value (.number 2)]), rest)
  | 1, 0, 7 => some ((.ld, [.special .i, .reg8 .a]), rest)
  | 1, 1, 7 => some ((.ld, [.special .r, .reg8 .a]), rest)
  | 1, 2, 7 => some ((.ld, [.reg8 .a, .special .i]), rest)
  | 1, 3, 7 => some ((.ld, [.reg8 .a, .special .r]), rest)
  | 2, 1, 2 => takeWord (fun w => (.push, [.value (.word w)])) rest
  | 2, 2, 1 =>
    match rest with
    | reg :: n :: rest => some ((.nextreg, [.value (.byte reg), .value (.byte n)]), rest)
    | _ => none
  | 2, 2, 2 => takeByte (fun reg => (.nextreg, [.value (.byte reg), .reg8 .a])) rest
  | 2, 3, 0 => some ((.jp, [.portC]), rest)
  | _, _, _ => takePlain (0xED00 ||| b.toUInt16) rest

/-- Instructions behind the lead byte of an index register. -/
def indexPage (reg : Index) (b : UInt8) (rest : List UInt8) : Reading :=
  let target := halfArgument reg (middle b)
  match (high b).toNat, (middle b).toNat, (low b).toNat with
  | 0, 4, 1 => takeWord (fun w => (.ld, [.index reg, .value (.word w)])) rest
  | 0, 5, 1 => some ((.add, [.index reg, .index reg]), rest)
  | 0, _, 1 => some ((.add, [.index reg, .pair (pair b)]), rest)
  | 0, 4, 2 => takeWord (fun w => (.ld, [.memory (.word w), .index reg])) rest
  | 0, 5, 2 => takeWord (fun w => (.ld, [.index reg, .memory (.word w)])) rest
  | 0, 4, 3 => some ((.inc, [.index reg]), rest)
  | 0, 5, 3 => some ((.dec, [.index reg]), rest)
  | 0, 6, 4 => takeByte (fun d => (.inc, [.indexed reg d])) rest
  | 0, 6, 5 => takeByte (fun d => (.dec, [.indexed reg d])) rest
  | 0, 6, 6 =>
    match rest with
    | d :: n :: rest => some ((.ld, [.indexed reg d, .value (.byte n)]), rest)
    | _ => none
  | 0, _, 4 => some ((.inc, [target]), rest)
  | 0, _, 5 => some ((.dec, [target]), rest)
  | 0, _, 6 => takeByte (fun n => (.ld, [target, .value (.byte n)])) rest
  | 1, 6, _ => takeByte (fun d => (.ld, [.indexed reg d, fieldArgument (low b)])) rest
  | 1, _, 6 => takeByte (fun d => (.ld, [fieldArgument (middle b), .indexed reg d])) rest
  | 1, _, _ => some ((.ld, [target, halfArgument reg (low b)]), rest)
  | 2, _, 6 => takeByte (fun d => aluGround (.ofCode (middle b)) (.indexed reg d)) rest
  | 2, _, _ => some (aluGround (.ofCode (middle b)) (halfArgument reg (low b)), rest)
  | 3, 1, 3 =>
    match rest with
    | d :: code :: rest =>
      let copy := if low code == 6 then [] else [.reg8 (.ofCode (low code))]
      some (bitGround code (.indexed reg d :: copy), rest)
    | _ => none
  | 3, 4, 1 => some ((.pop, [.index reg]), rest)
  | 3, 5, 1 => some ((.jp, [.indexed reg 0]), rest)
  | 3, 7, 1 => some ((.ld, [.pair .sp, .index reg]), rest)
  | 3, 4, 3 => some ((.ex, [.viaPair .sp, .index reg]), rest)
  | 3, 4, 5 => some ((.push, [.index reg]), rest)
  | _, _, _ => none

/-- The instruction at the front of bytes, in its one form, and the bytes behind it. -/
def disassemble : List UInt8 → Reading
  | [] => none
  | b :: rest =>
    match b.toNat, rest with
    | 0xCB, code :: rest => some (bitGround code [fieldArgument (low code)], rest)
    | 0xED, code :: rest => extendedPage code rest
    | 0xDD, code :: rest => indexPage .ix code rest
    | 0xFD, code :: rest => indexPage .iy code rest
    | _, rest => mainPage b rest

/-! ## Reading operands -/

/-- How the number of an expression goes into code. -/
inductive Field where
  | byte | word | distance | number
  deriving DecidableEq, Repr

/-- Operands of sixteen bits, which make an expression beside them one of sixteen bits. -/
@[simp] def Operand.isWide : Operand → Bool
  | .pair _ | .index _ => true
  | _ => false

/-- How the expression among the operands of a mnemonic goes into its code. -/
@[simp] def expressionField (m : Mnemonic) (ops : List Operand) : Field :=
  match m with
  | .jr | .djnz => .distance
  | .testBit | .resBit | .setBit | .rst | .im | .out => .number
  | .jp | .call | .push => .word
  | _ => if ops.any Operand.isWide then .word else .byte

/-- How the address in parentheses goes into the code of a mnemonic: as a port, or as an address. -/
@[simp] def addressField : Mnemonic → Field
  | .inp | .out => .byte
  | _ => .word

def readWord (e : Expr) : Step UInt16 := do
  ofExcept (← evalNow e).lowWord

def readDistance (e : Expr) : Step UInt8 := do
  let w ← readWord e
  ofExcept (branchByte w (← get).origin)

@[simp] def readImmediate : Field → Expr → Step Immediate
  | .byte, e => return .byte (← readWord e).toUInt8
  | .word, e => return .word (← readWord e)
  | .distance, e => return .distance (← readDistance e)
  | .number, e => return .number (← evalInt e)

def readDisplacement : Option (Sign × Expr) → Step UInt8
  | none => return 0
  | some (.plus, e) => return (← readWord e).toUInt8
  | some (.minus, e) => return (← readWord (.unary .neg e)).toUInt8

/-- An operand of a mnemonic whose expressions have to be known. `F` as the target of an input are
the flags. -/
@[simp] def readOperand (m : Mnemonic) (field : Field) : Operand → Step Argument
  | .reg8 reg => return .reg8 reg
  | .halfIndex reg => return .halfIndex reg
  | .special reg => return .special reg
  | .pair reg => return .pair reg
  | .index reg => return .index reg
  | .af => return .af
  | .afAlt => return .afAlt
  | .viaPair reg => return .viaPair reg
  | .portC => return .portC
  | .indexed reg d => return .indexed reg (← readDisplacement d)
  | .memory e => return .memory (← readImmediate (addressField m) e)
  | .cond cc => return .cond cc
  | .expr e => if m == .inp then return .flags else return .value (← readImmediate field e)
  | .param name => throw (.ofExpr (.param name))

@[simp] def readOperands (m : Mnemonic) (ops : List Operand) : Step (List Argument) :=
  ops.mapM (readOperand m (expressionField m ops))

end SpectrumAsm
