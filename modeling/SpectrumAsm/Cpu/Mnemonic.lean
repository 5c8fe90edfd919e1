/-
Mnemonics of the Z80 and of the Spectrum Next, and the groups whose opcodes follow one pattern.
-/
import SpectrumAsm.Cpu.Name
import SpectrumAsm.Text.Case

namespace SpectrumAsm.Cpu

/-- The mnemonics in the order of their numbers: those that never take an operand on the Z80, those of the
Next that need none, and the rest. -/
inductive Mnemonic where
  | nop | rlca | rrca | rla | rra | daa | cpl | scf | ccf | halt | exx | di | ei | neg | retn
  | reti | rrd | rld | ldi | cpi | ini | outi | ldd | cpd | ind | outd | ldir | cpir | inir | otir
  | lddr | cpdr | indr | otdr | swapnib | mul | outinb | ldix | ldirx | lddx | lddrx | pixeldn
  | pixelad | setae | ldpirx | ldirscale | ld | inc | dec | add | adc | sub | sbc | and | xor | or
  | cp | testBit | resBit | setBit | rlc | rrc | rl | rr | sla | sra | sll | srl | jp | jr | djnz
  | call | ret | rst | push | pop | ex | inp | out | im | test | mirror | nextreg
  deriving DecidableEq, Repr

inductive AluOp where
  | add | adc | sub | sbc | and | xor | or | cp
  deriving DecidableEq, Repr

inductive ShiftOp where
  | rlc | rrc | rl | rr | sla | sra | sll | srl
  deriving DecidableEq, Repr

namespace AluOp

def code : AluOp → UInt8
  | add => 0 | adc => 1 | sub => 2 | sbc => 3 | and => 4 | xor => 5 | or => 6 | cp => 7

def all : List AluOp := [add, adc, sub, sbc, and, xor, or, cp]

def ofCode (n : UInt8) : AluOp := (all.find? (·.code == n)).getD add

def name : AluOp → String
  | add => "ADD" | adc => "ADC" | sub => "SUB" | sbc => "SBC"
  | and => "AND" | xor => "XOR" | or => "OR" | cp => "CP"

def needsAccumulator : AluOp → Bool
  | add | adc | sbc => true
  | sub | and | xor | or | cp => false

end AluOp

namespace ShiftOp

def code : ShiftOp → UInt8
  | rlc => 0 | rrc => 1 | rl => 2 | rr => 3 | sla => 4 | sra => 5 | sll => 6 | srl => 7

def all : List ShiftOp := [rlc, rrc, rl, rr, sla, sra, sll, srl]

def ofCode (n : UInt8) : ShiftOp := (all.find? (·.code == n)).getD rlc

def name : ShiftOp → String
  | rlc => "RLC" | rrc => "RRC" | rl => "RL" | rr => "RR"
  | sla => "SLA" | sra => "SRA" | sll => "SLL" | srl => "SRL"

end ShiftOp

namespace Mnemonic

def all : List Mnemonic :=
  [nop, rlca, rrca, rla, rra, daa, cpl, scf, ccf, halt, exx, di, ei, neg, retn, reti, rrd, rld,
  ldi, cpi, ini, outi, ldd, cpd, ind, outd, ldir, cpir, inir, otir, lddr, cpdr, indr, otdr,
  swapnib, mul, outinb, ldix, ldirx, lddx, lddrx, pixeldn, pixelad, setae, ldpirx, ldirscale, ld,
  inc, dec, add, adc, sub, sbc, and, xor, or, cp, testBit, resBit, setBit, rlc, rrc, rl, rr, sla,
  sra, sll, srl, jp, jr, djnz, call, ret, rst, push, pop, ex, inp, out, im, test, mirror, nextreg]

def name : Mnemonic → String
  | nop => "NOP" | rlca => "RLCA" | rrca => "RRCA" | rla => "RLA" | rra => "RRA" | daa => "DAA"
  | cpl => "CPL" | scf => "SCF" | ccf => "CCF" | halt => "HALT" | exx => "EXX" | di => "DI"
  | ei => "EI" | neg => "NEG" | retn => "RETN" | reti => "RETI" | rrd => "RRD" | rld => "RLD"
  | ldi => "LDI" | cpi => "CPI" | ini => "INI" | outi => "OUTI" | ldd => "LDD" | cpd => "CPD"
  | ind => "IND" | outd => "OUTD" | ldir => "LDIR" | cpir => "CPIR" | inir => "INIR"
  | otir => "OTIR" | lddr => "LDDR" | cpdr => "CPDR" | indr => "INDR" | otdr => "OTDR"
  | swapnib => "SWAPNIB" | mul => "MUL" | outinb => "OUTINB" | ldix => "LDIX" | ldirx => "LDIRX"
  | lddx => "LDDX" | lddrx => "LDDRX" | pixeldn => "PIXELDN" | pixelad => "PIXELAD"
  | setae => "SETAE" | ldpirx => "LDPIRX" | ldirscale => "LDIRSCALE" | ld => "LD" | inc => "INC"
  | dec => "DEC" | add => "ADD" | adc => "ADC" | sub => "SUB" | sbc => "SBC" | and => "AND"
  | xor => "XOR" | or => "OR" | cp => "CP" | testBit => "BIT" | resBit => "RES" | setBit => "SET"
  | rlc => "RLC" | rrc => "RRC" | rl => "RL" | rr => "RR" | sla => "SLA" | sra => "SRA"
  | sll => "SLL" | srl => "SRL" | jp => "JP" | jr => "JR" | djnz => "DJNZ" | call => "CALL"
  | ret => "RET" | rst => "RST" | push => "PUSH" | pop => "POP" | ex => "EX" | inp => "IN"
  | out => "OUT" | im => "IM" | test => "TEST" | mirror => "MIRROR" | nextreg => "NEXTREG"

def code (m : Mnemonic) : Nat := m.ctorIdx

def ofCode (n : Nat) : Mnemonic := all.getD n nop

/-- The mnemonic a word names, in any case; `SLI` is a second name of `SLL`. -/
def parse (word : String) : Except UnknownName Mnemonic :=
  lookupName .mnemonic (("SLI", sll) :: all.map fun m => (m.name, m)) (Text.upper word) word

def alu : Mnemonic → Option AluOp
  | add => some .add | adc => some .adc | sub => some .sub | sbc => some .sbc
  | and => some .and | xor => some .xor | or => some .or | cp => some .cp
  | _ => none

def shift : Mnemonic → Option ShiftOp
  | rlc => some .rlc | rrc => some .rrc | rl => some .rl | rr => some .rr
  | sla => some .sla | sra => some .sra | sll => some .sll | srl => some .srl
  | _ => none

def bitBase : Mnemonic → Option UInt8
  | testBit => some 0x40 | resBit => some 0x80 | setBit => some 0xC0
  | _ => none

def isNextOnly : Mnemonic → Bool
  | swapnib | mul | outinb | ldix | ldirx | lddx | lddrx | pixeldn | pixelad | setae | ldpirx
  | ldirscale | test | mirror | nextreg => true
  | _ => false

/-- Opcode of the instructions that stand alone; above 0xFF its high byte comes first. -/
def plainOpcode : Mnemonic → Option UInt16
  | nop => some 0x00 | rlca => some 0x07 | rrca => some 0x0F | rla => some 0x17 | rra => some 0x1F
  | daa => some 0x27 | cpl => some 0x2F | scf => some 0x37 | ccf => some 0x3F | halt => some 0x76
  | exx => some 0xD9 | di => some 0xF3 | ei => some 0xFB | neg => some 0xED44
  | retn => some 0xED45 | reti => some 0xED4D | rrd => some 0xED67 | rld => some 0xED6F
  | ldi => some 0xEDA0 | cpi => some 0xEDA1 | ini => some 0xEDA2 | outi => some 0xEDA3
  | ldd => some 0xEDA8 | cpd => some 0xEDA9 | ind => some 0xEDAA | outd => some 0xEDAB
  | ldir => some 0xEDB0 | cpir => some 0xEDB1 | inir => some 0xEDB2 | otir => some 0xEDB3
  | lddr => some 0xEDB8 | cpdr => some 0xEDB9 | indr => some 0xEDBA | otdr => some 0xEDBB
  | swapnib => some 0xED23 | mul => some 0xED30 | outinb => some 0xED90 | ldix => some 0xEDA4
  | ldirx => some 0xEDB4 | lddx => some 0xEDAC | lddrx => some 0xEDBC | pixeldn => some 0xED93
  | pixelad => some 0xED94 | setae => some 0xED95 | ldpirx => some 0xEDB7
  | ldirscale => some 0xEDB6
  | _ => none

def ofPlainOpcode (opcode : UInt16) : Option Mnemonic :=
  all.find? (·.plainOpcode == some opcode)

end Mnemonic

end SpectrumAsm.Cpu
