/-
From mnemonics and operands to machine code.

Complaints come in a fixed order: instructions of the Next on another model first, then the operands from left
to right.
-/
import SpectrumAsm.Cpu.Mnemonic
import SpectrumAsm.Instruction
import SpectrumAsm.Operand

namespace SpectrumAsm.Instruction

open SpectrumAsm.Cpu

/-- Cells, or what is wrong with the operands. -/
abbrev Cells := Except Fault (List Cell)

def invalid (m : Mnemonic) : Fault := .invalidOperation m.name

def fixed (bs : List UInt8) : List Cell := bs.map .byte

def mid (n : UInt8) : UInt8 := n <<< 3

def pairField (n : UInt8) : UInt8 := n <<< 4

/-- An opcode whose high byte, unless it is zero, comes first. -/
def opcode (code : UInt16) : List Cell :=
  if code > 0xFF then fixed [(code >>> 8).toUInt8, code.toUInt8] else fixed [code.toUInt8]

def displacement : Option (Sign × Expr) → Cell
  | none => .byte 0
  | some (.plus, e) => .byteOf e
  | some (.minus, e) => .byteOf (.unary .neg e)

def indexed (reg : Index) (d : Option (Sign × Expr)) (code : UInt8) : List Cell :=
  fixed [reg.lead, code] ++ [displacement d]

/-- The condition an operand can be read as. A lone `c` is a register unless a condition is
wanted. -/
def condition? : Operand → Option Condition
  | .cond cc => some cc
  | .reg8 .c => some .c
  | _ => none

def onNext (next : Bool) (cs : List Cell) : Cells :=
  if next then .ok cs else .error .nextOnly

/-! ## Loads -/

def loadReg8 (dst : Reg8) : Operand → Option (List Cell)
  | .reg8 s => some (fixed [0x40 ||| mid dst.code ||| s.code])
  | .viaPair .hl => some (fixed [0x46 ||| mid dst.code])
  | .viaPair .bc => if dst == .a then some (fixed [0x0A]) else none
  | .viaPair .de => if dst == .a then some (fixed [0x1A]) else none
  | .special .i => if dst == .a then some (opcode 0xED57) else none
  | .special .r => if dst == .a then some (opcode 0xED5F) else none
  | .halfIndex s =>
    if dst == .h || dst == .l then none
    else some (fixed [s.owner.lead, 0x44 ||| mid dst.code ||| s.lowBit])
  | .expr e => some (fixed [0x06 ||| mid dst.code] ++ [.byteOf e])
  | .memory e => if dst == .a then some (fixed [0x3A] ++ [.wordOf e]) else none
  | .indexed reg disp => some (indexed reg disp (0x46 ||| mid dst.code))
  | _ => none

def loadHalfIndex (d : HalfIndex) : Operand → Option (List Cell)
  | .reg8 s =>
    if s == .h || s == .l then none
    else some (fixed [d.owner.lead, 0x60 ||| mid d.lowBit ||| s.code])
  | .halfIndex s =>
    if d.owner == s.owner then
      some (fixed [d.owner.lead, 0x64 ||| mid d.lowBit ||| s.lowBit])
    else none
  | .expr e => some (fixed [d.owner.lead, 0x26 ||| mid d.lowBit] ++ [.byteOf e])
  | _ => none

def loadPair (d : Pair) : Operand → Option (List Cell)
  | .memory e =>
    let lead := if d == .hl then fixed [0x2A] else fixed [0xED, 0x4B ||| pairField d.code]
    some (lead ++ [.wordOf e])
  | .expr e => some (fixed [0x01 ||| pairField d.code] ++ [.wordOf e])
  | .pair .hl => if d == .sp then some (fixed [0xF9]) else none
  | .index reg => if d == .sp then some (fixed [reg.lead, 0xF9]) else none
  | _ => none

def loadMemory (e : Expr) : Operand → Option (List Cell)
  | .reg8 .a => some (fixed [0x32] ++ [.wordOf e])
  | .pair .hl => some (fixed [0x22] ++ [.wordOf e])
  | .pair s => some (fixed [0xED, 0x43 ||| pairField s.code] ++ [.wordOf e])
  | .index reg => some (fixed [reg.lead, 0x22] ++ [.wordOf e])
  | _ => none

def load? : Operand → Operand → Option (List Cell)
  | .reg8 dst, src => loadReg8 dst src
  | .halfIndex d, src => loadHalfIndex d src
  | .pair d, src => loadPair d src
  | .memory e, src => loadMemory e src
  | .special .i, .reg8 .a => some (opcode 0xED47)
  | .special .r, .reg8 .a => some (opcode 0xED4F)
  | .viaPair .bc, .reg8 .a => some (fixed [0x02])
  | .viaPair .de, .reg8 .a => some (fixed [0x12])
  | .viaPair .hl, .reg8 s => some (fixed [0x70 ||| s.code])
  | .viaPair .hl, .expr e => some (fixed [0x36] ++ [.byteOf e])
  | .index reg, .memory e => some (fixed [reg.lead, 0x2A] ++ [.wordOf e])
  | .index reg, .expr e => some (fixed [reg.lead, 0x21] ++ [.wordOf e])
  | .indexed reg disp, .reg8 s => some (indexed reg disp (0x70 ||| s.code))
  | .indexed reg disp, .expr e => some (indexed reg disp 0x36 ++ [.byteOf e])
  | _, _ => none

def load : List Operand → Cells
  | [dst, src] =>
    match load? dst src with
    | some cs => .ok cs
    | none => .error (.invalidLoad dst.shown src.shown)
  | _ => .error (invalid .ld)

/-! ## Arithmetic -/

def step (m : Mnemonic) (down : UInt8) : List Operand → Cells
  | [.reg8 reg] => .ok (fixed [0x04 ||| mid reg.code ||| down])
  | [.viaPair .hl] => .ok (fixed [0x34 ||| down])
  | [.indexed reg disp] => .ok (indexed reg disp (0x34 ||| down))
  | [.halfIndex reg] => .ok (fixed [reg.owner.lead, 0x24 ||| mid reg.lowBit ||| down])
  | [.pair reg] => .ok (fixed [0x03 ||| pairField reg.code ||| mid down])
  | [.index reg] => .ok (fixed [reg.lead, 0x23 ||| mid down])
  | [other] => .error (.invalidOperand m.name other.shown)
  | _ => .error (invalid m)

def accumulator (m : Mnemonic) (op : AluOp) : Operand → Cells
  | .reg8 reg => .ok (fixed [0x80 ||| mid op.code ||| reg.code])
  | .viaPair .hl => .ok (fixed [0x86 ||| mid op.code])
  | .halfIndex reg => .ok (fixed [reg.owner.lead, 0x84 ||| mid op.code ||| reg.lowBit])
  | .indexed reg disp => .ok (indexed reg disp (0x86 ||| mid op.code))
  | .expr e => .ok (fixed [0xC6 ||| mid op.code] ++ [.byteOf e])
  | other => .error (.aluSecondOperand m.name other.shown)

/-- Second opcode byte of the Next's additions to a pair, counted from that for `HL`. -/
def nextPlace : Pair → UInt8
  | .hl => 0
  | .de => 1
  | _ => 2

def addPair (next : Bool) (m : Mnemonic) (op : AluOp) (d : Pair) (src : Operand) : Cells :=
  let refused : Fault :=
    if d == .hl then .secondOperand m.name d.name src.shown else .firstOperand m.name d.name
  match src with
  | .pair s =>
    if d == .hl then
      match op with
      | .add => .ok (fixed [0x09 ||| pairField s.code])
      | .adc => .ok (fixed [0xED, 0x4A ||| pairField s.code])
      | _ => .ok (fixed [0xED, 0x42 ||| pairField s.code])
    else .error refused
  | .reg8 s =>
    if op == .add && d != .sp then
      if s == .a then onNext next (fixed [0xED, 0x31 + nextPlace d])
      else .error (.secondOperand m.name d.name src.shown)
    else .error refused
  | .expr e =>
    if op == .add && d != .sp then
      onNext next (fixed [0xED, 0x34 + nextPlace d] ++ [.wordOf e])
    else .error refused
  | _ => .error refused

def addIndex (m : Mnemonic) (op : AluOp) (d : Index) (src : Operand) : Cells :=
  let refused : Fault := .secondOperand m.name d.name src.shown
  if op == .add then
    match src with
    | .pair s =>
      if s == .hl then .error refused else .ok (fixed [d.lead, 0x09 ||| pairField s.code])
    | .index s => if s == d then .ok (fixed [d.lead, 0x29]) else .error refused
    | _ => .error refused
  else .error (invalid m)

def arithmetic (next : Bool) (m : Mnemonic) (op : AluOp) : List Operand → Cells
  | [.reg8 .a, src] => accumulator m op src
  | [dst, src] =>
    if op.needsAccumulator then
      match dst with
      | .pair d => addPair next m op d src
      | .index d => addIndex m op d src
      | .reg8 _ => .error (.accumulatorOnly m.name)
      | _ => .error (invalid m)
    else .error (.twoArgumentForm m.name)
  | [src] => if op.needsAccumulator then .error (invalid m) else accumulator m op src
  | _ => .error (invalid m)

/-! ## Bits and shifts -/

/-- The forms behind `CB`; an indexed operand may leave a copy in a register. -/
def bitwise (m : Mnemonic) (code : UInt8) (target : Operand) (copy : Option Reg8) : Cells :=
  match target, copy with
  | .reg8 reg, none => .ok (fixed [0xCB, code ||| reg.code])
  | .viaPair .hl, none => .ok (fixed [0xCB, code ||| 6])
  | .indexed reg disp, copy =>
    .ok (fixed [reg.lead, 0xCB] ++ [displacement disp] ++
      fixed [code ||| (copy.map Reg8.code).getD 6])
  | other, none => .error (.invalidOperand m.name other.shown)
  | _, some _ => .error (invalid m)

def shift (m : Mnemonic) (op : ShiftOp) : List Operand → Cells
  | [target] => bitwise m (mid op.code) target none
  | [.indexed reg disp, .reg8 copy] => bitwise m (mid op.code) (.indexed reg disp) (some copy)
  | _ => .error (invalid m)

def bit (m : Mnemonic) (base : UInt8) (target : Operand) (copy : Option Reg8) (n : Int64) : Cells :=
  if 0 ≤ n ∧ n ≤ 7 then bitwise m (base ||| mid (UInt8.ofInt n.toInt)) target copy
  else .error (.bitIndex n)

def bits (m : Mnemonic) (base : UInt8) : List Operand → Except Fault Instruction
  | [.expr n, target] => .ok (.choose n (bit m base target none))
  | [.expr n, .indexed reg disp, .reg8 copy] =>
    .ok (.choose n (bit m base (.indexed reg disp) (some copy)))
  | _ => .error (invalid m)

/-! ## Jumps -/

/-- A relative branch to a target. Complaints name `JR` for `DJNZ` too. -/
def relative (code : UInt8) : Operand → Cells
  | .expr e => .ok [.branch code e]
  | target => .error (.invalidOperand Mnemonic.jr.name target.shown)

def jumpRelative : List Operand → Cells
  | [target] => relative 0x18 target
  | [cc, target] =>
    match condition? cc with
    | some flag =>
      if flag.isRelative then relative (0x20 ||| mid flag.code) target
      else .error (.condition Mnemonic.jr.name flag.name)
    | none => .error (invalid .jr)
  | _ => .error (invalid .jr)

def isIndirect : Operand → Bool
  | .viaPair _ | .indexed _ _ | .memory _ | .portC => true
  | _ => false

def jump (next : Bool) : List Operand → Cells
  | [.expr e] => .ok (fixed [0xC3] ++ [.wordOf e])
  | [.viaPair .hl] => .ok (fixed [0xE9])
  | [.indexed reg none] => .ok (fixed [reg.lead, 0xE9])
  | [.portC] => onNext next (opcode 0xED98)
  | [target] => .error (if isIndirect target then .jpIndirect else invalid .jp)
  | [cc, target] =>
    match condition? cc, target with
    | some flag, .expr e => .ok (fixed [0xC2 ||| mid flag.code] ++ [.wordOf e])
    | some _, target => .error (if isIndirect target then .jpCondition else invalid .jp)
    | none, _ => .error (invalid .jp)
  | _ => .error (invalid .jp)

def call : List Operand → Cells
  | [.expr e] => .ok (fixed [0xCD] ++ [.wordOf e])
  | [cc, .expr e] =>
    match condition? cc with
    | some flag => .ok (fixed [0xC4 ||| mid flag.code] ++ [.wordOf e])
    | none => .error (invalid .call)
  | _ => .error (invalid .call)

def ret : List Operand → Cells
  | [] => .ok (fixed [0xC9])
  | [cc] =>
    match condition? cc with
    | some flag => .ok (fixed [0xC0 ||| mid flag.code])
    | none => .error (invalid .ret)
  | _ => .error (invalid .ret)

def restart (n : Int64) : Cells :=
  if n.toInt % 8 = 0 ∧ 0 ≤ n ∧ n ≤ 0x38 then .ok (fixed [0xC7 ||| UInt8.ofInt n.toInt])
  else .error (.rstTarget n)

def interruptMode (n : Int64) : Cells :=
  if n = 0 then .ok (opcode 0xED46)
  else if n = 1 then .ok (opcode 0xED56)
  else if n = 2 then .ok (opcode 0xED5E)
  else .error (.interruptMode n)

/-! ## Stack, exchange, ports -/

def stack (next : Bool) (m : Mnemonic) : List Operand → Cells
  | [.pair reg] =>
    if reg == .sp then .error (.invalidOperand m.name reg.name)
    else .ok (fixed [(if m == .pop then 0xC1 else 0xC5) ||| pairField reg.code])
  | [.af] => .ok (fixed [if m == .pop then 0xF1 else 0xF5])
  | [.afAlt] => .error (.altAf m.name)
  | [.index reg] => .ok (fixed [reg.lead, if m == .pop then 0xE1 else 0xE5])
  | [.expr e] =>
    if m == .pop then .error .popExpression
    else onNext next (opcode 0xED8A ++ [.wordOf e])
  | [other] => .error (.invalidOperand m.name other.shown)
  | _ => .error (invalid m)

def exchange : List Operand → Cells
  | [.af, .afAlt] => .ok (fixed [0x08])
  | [.af, _] => .error .exAf
  | [.pair .de, .pair .hl] => .ok (fixed [0xEB])
  | [.pair .de, _] => .error .exDe
  | [.viaPair .sp, .pair .hl] => .ok (fixed [0xE3])
  | [.viaPair .sp, .index reg] => .ok (fixed [reg.lead, 0xE3])
  | [.viaPair .sp, _] => .error .exSp
  | [_, _] => .error .exFirst
  | _ => .error (invalid .ex)

/-- `IN`. The flags can only be set, and are written as `F`. -/
def input : List Operand → Cells
  | [.reg8 reg, .memory port] =>
    if reg == .a then .ok (fixed [0xDB] ++ [.byteOf port]) else .error .inPortRegister
  | [.reg8 reg, .portC] => .ok (fixed [0xED, 0x40 ||| mid reg.code])
  | [.portC] => .ok (opcode 0xED70)
  | [.expr (.symbol ref), .portC] =>
    if ref.joined == "F" && !ref.rooted then .ok (opcode 0xED70) else .error (invalid .inp)
  | _ => .error (invalid .inp)

def outputValue (n : Int64) : Cells :=
  if n = 0 then .ok (opcode 0xED71) else .error .outValue

def output : List Operand → Except Fault Instruction
  | [.memory port, .reg8 .a] => .ok (.cells (fixed [0xD3] ++ [.byteOf port]))
  | [.memory _, _] => .error .inPortRegister
  | [.portC, .reg8 reg] => .ok (.cells (fixed [0xED, 0x41 ||| mid reg.code]))
  | [.portC, .expr e] => .ok (.choose e outputValue)
  | _ => .error (invalid .out)

/-! ## Instructions of the Next -/

def mirror : List Operand → Cells
  | [.reg8 .a] => .ok (opcode 0xED24)
  | [.pair .de] => .ok (opcode 0xED26)
  | [other] => .error (.firstOperand Mnemonic.mirror.name other.shown)
  | _ => .error (invalid .mirror)

def nextRegister : List Operand → Cells
  | [.expr reg, .reg8 .a] => .ok (opcode 0xED92 ++ [.byteOf reg])
  | [.expr reg, .expr value] => .ok (opcode 0xED91 ++ [.byteOf reg, .byteOf value])
  | [.expr _, other] =>
    .error (.secondOperand Mnemonic.nextreg.name "<expr>" other.shown)
  | _ => .error (invalid .nextreg)

/-! ## All instructions -/

/-- Instructions that stand alone. `MUL` may name its factors. -/
def plain (m : Mnemonic) (code : UInt16) : List Operand → Cells
  | [] => .ok (opcode code)
  | [.reg8 .d, .reg8 .e] => if m == .mul then .ok (opcode code) else .error (invalid m)
  | _ => .error (invalid m)

def withOperands (next : Bool) (m : Mnemonic) (ops : List Operand) : Except Fault Instruction :=
  match m with
  | .ld => .cells <$> load ops
  | .inc => .cells <$> step m 0 ops
  | .dec => .cells <$> step m 1 ops
  | .jp => .cells <$> jump next ops
  | .jr => .cells <$> jumpRelative ops
  | .djnz =>
    match ops with
    | [target] => .cells <$> relative 0x10 target
    | _ => .error (invalid m)
  | .call => .cells <$> call ops
  | .ret => .cells <$> ret ops
  | .rst =>
    match ops with
    | [.expr e] => .ok (.choose e restart)
    | _ => .error (invalid m)
  | .push | .pop => .cells <$> stack next m ops
  | .ex => .cells <$> exchange ops
  | .inp => .cells <$> input ops
  | .out => output ops
  | .im =>
    match ops with
    | [.expr e] => .ok (.choose e interruptMode)
    | _ => .error (invalid m)
  | .test =>
    match ops with
    | [.expr e] => .ok (.cells (opcode 0xED27 ++ [.byteOf e]))
    | _ => .error (invalid m)
  | .mirror => .cells <$> mirror ops
  | .nextreg => .cells <$> nextRegister ops
  | _ =>
    match m.alu, m.shift, m.bitBase with
    | some op, _, _ => .cells <$> arithmetic next m op ops
    | _, some op, _ => .cells <$> shift m op ops
    | _, _, some base => bits m base ops
    | _, _, _ => .error (invalid m)

/-- The instruction that a mnemonic and operands mean; `next` says whether the code is for a
Next. -/
def encode (next : Bool) (m : Mnemonic) (ops : List Operand) : Except Fault Instruction :=
  if m.isNextOnly && !next then .error .nextOnly
  else
    match m.plainOpcode with
    | some code => .cells <$> plain m code ops
    | none => withOperands next m ops

end SpectrumAsm.Instruction
