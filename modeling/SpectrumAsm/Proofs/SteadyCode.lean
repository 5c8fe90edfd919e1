/-
Machine code and the expressions in it.

The expressions in the code of an operation are those of its operands, or the negative of one. So what holds of
all operands of an operation, whatever the pass of a loop and the parameters of macros, holds of its cells.
-/
import SpectrumAsm.Proofs.RewrittenLines
import SpectrumAsm.Proofs.Simulation

namespace SpectrumAsm

/-- The expression of an operand, if it has one, is steady, and so is its negative: `P` says in what way. -/
def Operand.SteadyIn (P : Expr → Prop) (o : Operand) : Prop := ∀ e, o.expr? = some e → P e ∧ P (.unary .neg e)

def Cell.SteadyIn (P : Expr → Prop) : Cell → Prop
  | .byte _ => True
  | .byteOf e | .wordOf e | .branch _ e => P e

variable {P : Expr → Prop} {src target : Operand} {cs : List Cell}

namespace Instruction

open SpectrumAsm.Cpu

attribute [local simp] invalid

section
variable (e : Expr)

@[simp] theorem steady_expr : (Operand.expr e).SteadyIn P ↔ P e ∧ P (.unary .neg e) :=
  ⟨fun h => h e rfl, fun h _ he => by cases he; exact h⟩

@[simp] theorem steady_memory : (Operand.memory e).SteadyIn P ↔ P e ∧ P (.unary .neg e) :=
  ⟨fun h => h e rfl, fun h _ he => by cases he; exact h⟩

@[simp] theorem steady_indexed (reg : Index) (d : Option (Sign × Expr)) :
    (Operand.indexed reg d).SteadyIn P ↔ ∀ x, d = some x → P x.2 ∧ P (.unary .neg x.2) := by
  cases d <;> simp [Operand.SteadyIn, Operand.expr?]

@[simp] theorem steady_displacement {d : Option (Sign × Expr)} (h : ∀ x, d = some x → P x.2 ∧ P (.unary .neg x.2)) :
    (displacement d).SteadyIn P := by
  cases d with
  | none => trivial
  | some d =>
    obtain ⟨_ | _, e⟩ := d
    · exact (h _ rfl).1
    · exact (h _ rfl).2

@[simp] theorem steady_byteOf : (Cell.byteOf e).SteadyIn P ↔ P e := .rfl

@[simp] theorem steady_wordOf : (Cell.wordOf e).SteadyIn P ↔ P e := .rfl

@[simp] theorem steady_branch (opcode : UInt8) : (Cell.branch opcode e).SteadyIn P ↔ P e := .rfl

end

def SteadyCells (P : Expr → Prop) (cs : List Cell) : Prop := ∀ c ∈ cs, c.SteadyIn P

@[simp] theorem steadyCells_nil : SteadyCells P [] := nofun

@[simp] theorem steadyCells_cons {c : Cell} :
    SteadyCells P (c :: cs) ↔ c.SteadyIn P ∧ SteadyCells P cs := List.forall_mem_cons

@[simp] theorem steadyCells_append {ds : List Cell} :
    SteadyCells P (cs ++ ds) ↔ SteadyCells P cs ∧ SteadyCells P ds := List.forall_mem_append

@[simp] theorem steadyCells_fixed (bs : List UInt8) : SteadyCells P (fixed bs) := by
  intro c hc
  obtain ⟨b, -, rfl⟩ := List.mem_map.1 hc
  trivial

@[simp] theorem steadyCells_opcode (code : UInt16) : SteadyCells P (opcode code) := by
  unfold opcode
  split <;> exact steadyCells_fixed _

@[simp] theorem steadyCells_indexed (reg : Index) (d : Option (Sign × Expr)) (code : UInt8) :
    SteadyCells P (indexed reg d code) ↔ (displacement d).SteadyIn P := by
  simp [indexed]

/-- What is encoded is steady, or refused for other reasons than a parameter. -/
def SteadyCode (P : Expr → Prop) : Cells → Prop
  | .ok cs => SteadyCells P cs
  | .error fault => fault.isParam = false

@[simp] theorem steadyCode_ok : SteadyCode P (.ok cs) ↔ SteadyCells P cs := .rfl

@[simp] theorem steadyCode_error (fault : Fault) : SteadyCode P (.error fault) ↔ fault.isParam = false := .rfl

@[simp] theorem steadyCode_onNext {next : Bool} (h : SteadyCells P cs) : SteadyCode P (onNext next cs) := by
  unfold onNext
  split
  · exact h
  · rfl

def SteadyLoad (P : Expr → Prop) (x : Option (List Cell)) : Prop := ∀ cs, x = some cs → SteadyCells P cs

@[simp] theorem steadyLoad_some : SteadyLoad P (some cs) ↔ SteadyCells P cs :=
  ⟨fun h => h cs rfl, fun h _ hcs => by cases hcs; exact h⟩

@[simp] theorem steadyLoad_none : SteadyLoad P none := nofun

/-- An instruction is steady, if there is one: its cells are, and so is the number they depend on. -/
def SteadyInstruction (P : Expr → Prop) : Except Fault Instruction → Prop
  | .ok (cells cs) => SteadyCells P cs
  | .ok (choose number code) => P number ∧ ∀ n, SteadyCode P (code n)
  | .error fault => fault.isParam = false

@[simp] theorem steadyInstruction_cells : SteadyInstruction P (.ok (.cells cs)) ↔ SteadyCells P cs := .rfl

@[simp] theorem steadyInstruction_choose {number : Expr} {cells : Int64 → Cells} :
    SteadyInstruction P (.ok (.choose number cells)) ↔ P number ∧ ∀ n, SteadyCode P (cells n) := .rfl

@[simp] theorem steadyInstruction_error (fault : Fault) :
    SteadyInstruction P (.error fault) ↔ fault.isParam = false := .rfl

theorem SteadyCode.instruction {x : Cells} (h : SteadyCode P x) : SteadyInstruction P (.cells <$> x) := by
  cases x <;> exact h

/-! ## Forms of instructions -/

theorem load?_steady {dst : Operand} (hd : dst.SteadyIn P) (hs : src.SteadyIn P) : SteadyLoad P (load? dst src) := by
  unfold load?
  repeat' first
    | split
    | unfold loadReg8
    | unfold loadHalfIndex
    | unfold loadPair
    | unfold loadMemory
  all_goals simp_all

theorem bitwise_steady (m : Mnemonic) (code : UInt8) (ht : target.SteadyIn P) (copy : Option Reg8) :
    SteadyCode P (bitwise m code target copy) := by
  unfold bitwise
  split <;> simp_all

theorem bit_steady (m : Mnemonic) (base : UInt8) (ht : target.SteadyIn P) (copy : Option Reg8)
    (n : Int64) : SteadyCode P (bit m base target copy n) := by
  unfold bit
  split
  · exact bitwise_steady m _ ht copy
  · rfl

theorem restart_steady (n : Int64) : SteadyCode P (restart n) := by
  unfold restart
  split <;> simp

theorem interruptMode_steady (n : Int64) : SteadyCode P (interruptMode n) := by
  unfold interruptMode
  repeat' split
  all_goals simp

theorem outputValue_steady (n : Int64) : SteadyCode P (outputValue n) := by
  unfold outputValue
  split <;> simp

section
variable {ops : List Operand} (h : ∀ o ∈ ops, o.SteadyIn P)
include h

theorem load_steady : SteadyCode P (load ops) := by
  unfold load
  split
  · next dst src =>
    have hload := load?_steady (h dst (by simp)) (h src (by simp))
    split
    · next hcs => exact hload _ hcs
    · rfl
  · rfl

theorem arithmetic_steady (next : Bool) (m : Mnemonic) (op : AluOp) : SteadyCode P (arithmetic next m op ops) := by
  unfold arithmetic
  repeat' first
    | split
    | unfold accumulator
    | unfold addPair
    | unfold addIndex
  all_goals simp_all

theorem shift_steady (m : Mnemonic) (op : ShiftOp) : SteadyCode P (shift m op ops) := by
  unfold shift
  split <;> simp_all [bitwise_steady]

theorem bits_steady (m : Mnemonic) (base : UInt8) : SteadyInstruction P (bits m base ops) := by
  unfold bits
  split <;> simp_all [bit_steady]

theorem withOperands_steady (next : Bool) (m : Mnemonic) : SteadyInstruction P (withOperands next m ops) := by
  unfold withOperands
  split
  case h_1 => exact (load_steady h).instruction
  case h_19 =>
    split
    · exact (arithmetic_steady h next m _).instruction
    · exact (shift_steady h m _).instruction
    · exact bits_steady h m _
    · rfl
  all_goals try apply SteadyCode.instruction
  all_goals
    repeat' first
      | split
      | apply SteadyCode.instruction
      | unfold step
      | unfold jump
      | unfold jumpRelative
      | unfold relative
      | unfold call
      | unfold ret
      | unfold stack
      | unfold exchange
      | unfold input
      | unfold output
      | unfold mirror
      | unfold nextRegister
  all_goals simp_all [restart_steady, interruptMode_steady, outputValue_steady]

theorem encode_steady (next : Bool) (m : Mnemonic) : SteadyInstruction P (encode next m ops) := by
  unfold encode
  split
  · rfl
  split
  · apply SteadyCode.instruction
    unfold plain
    repeat' split
    all_goals simp
  · exact withOperands_steady h next m

end

end Instruction

end SpectrumAsm
