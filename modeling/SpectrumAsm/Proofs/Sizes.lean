/-
How many bytes a line appends.

An operand that is known and one that has to wait take up the same room (`addCell_adds`), and where a number
chooses the opcode, all choices are equally long (`even_encode`). Data takes one or two bytes for each
expression.
-/
import Mathlib.Algebra.GroupWithZero.Nat
import SpectrumAsm.Proofs.Walking

namespace SpectrumAsm

open Step Instruction

variable {a b : Assembly} {m : Cpu.Mnemonic} {ops : List Operand} {n : Int64} {cs cs' : List Cell}
  {number : Expr} {next : Bool} {code : Code}

/-! ## Sizes of instructions -/

def cellsSize (cs : List Cell) : Nat := (cs.map Cell.size).sum

@[simp] theorem cellsSize_cons (c : Cell) (cs : List Cell) : cellsSize (c :: cs) = c.size + cellsSize cs := by
  simp [cellsSize]

@[simp] theorem cellsSize_append (cs ds : List Cell) : cellsSize (cs ++ ds) = cellsSize cs + cellsSize ds := by
  simp [cellsSize]

namespace Instruction

@[simp] theorem cellsSize_fixed (bs : List UInt8) : cellsSize (fixed bs) = bs.length := by
  induction bs with
  | nil => rfl
  | cons b bs ih =>
    have hcons : fixed (b :: bs) = .byte b :: fixed bs := rfl
    rw [hcons, cellsSize_cons, ih, Cell.size, List.length_cons]
    omega

/-- The cells an instruction can turn out to have. -/
inductive Yields : Instruction → List Cell → Prop where
  | cells (cs : List Cell) : Yields (.cells cs) cs
  | choose {number : Expr} {f : Int64 → Cells} {n : Int64} {cs : List Cell} (h : f n = .ok cs) :
    Yields (.choose number f) cs

/-- Whatever the number of an instruction is, its cells take up the same room. -/
def Even (i : Instruction) : Prop := ∀ ⦃cs cs' : List Cell⦄, i.Yields cs → i.Yields cs' → cellsSize cs = cellsSize cs'

theorem even_cells {x : Cells} {i : Instruction} (h : cells <$> x = .ok i) : i.Even := by
  cases x <;> cases h
  rintro _ _ ⟨⟩ ⟨⟩
  rfl

theorem even_choose {f : Int64 → Cells} (size : Nat) (hf : ∀ n cs, f n = .ok cs → cellsSize cs = size) :
    (choose number f).Even := by
  rintro _ _ (_ | h) (_ | h')
  rw [hf _ _ h, hf _ _ h']

theorem even_bit (m : Cpu.Mnemonic) (base : UInt8) (target : Operand) (copy : Option Cpu.Reg8) :
    (choose number (bit m base target copy)).Even := by
  rintro _ _ (_ | h) (_ | h')
  unfold bit bitwise at h h'
  split at h <;> split at h'
  · split at h <;> cases h <;> cases h' <;> simp
  · cases h'
  · cases h
  · cases h

/-- The size of an instruction does not depend on the values of its operands. -/
theorem even_encode {i : Instruction} (h : encode next m ops = .ok i) : i.Even := by
  unfold encode at h
  split at h
  · cases h
  split at h
  · exact even_cells h
  unfold withOperands at h
  split at h <;> try exact even_cells h
  · -- `DJNZ`
    split at h
    · exact even_cells h
    · cases h
  · -- `RST`
    split at h <;> cases h
    refine even_choose 1 fun n cs h => ?_
    unfold restart at h
    split at h <;> cases h
    rfl
  · -- `OUT`
    unfold output at h
    split at h <;> cases h
    · exact even_cells (x := .ok _) rfl
    · exact even_cells (x := .ok _) rfl
    refine even_choose 2 fun n cs h => ?_
    unfold outputValue at h
    split at h <;> cases h
    rfl
  · -- `IM`
    split at h <;> cases h
    refine even_choose 2 fun n cs h => ?_
    unfold interruptMode at h
    repeat' split at h
    all_goals cases h
    all_goals rfl
  · -- `TEST`
    split at h <;> cases h
    exact even_cells (x := .ok _) rfl
  · split at h
    · exact even_cells h
    · exact even_cells h
    · unfold bits at h
      split at h <;> cases h
      · exact even_bit ..
      · exact even_bit ..
    · cases h

end Instruction

/-! ## Sizes of code -/

/-- A step that, whenever it goes through, adds a fixed number of bytes to code. -/
def Step.Adds (n : Nat) (c : Code) (x : Step Code) : Prop :=
  ∀ a d b, x.run.run a = (.ok d, b) → d.bytes.size = c.bytes.size + n

theorem OperandSize.add_adds (size : OperandSize) (c : Code) (e : Expr) : (size.add c e).Adds size.kind.span c := by
  intro a d b h
  rcases (size.add_enters c e).ok h with ⟨-, rfl⟩ | ⟨-, v, bs, -, hbs, rfl⟩
  · simp
  · cases hw : v.lowWord <;> rw [hw] at hbs <;> cases hbs
    simp

theorem addBranch_adds (c : Code) (opcode : UInt8) (target : Expr) : (addBranch c opcode target).Adds 2 c := by
  intro a d b h
  rcases (addBranch_enters c opcode target).ok h with ⟨-, rfl⟩ | ⟨-, v, bs, -, hbs, rfl⟩
  · simp
  · cases hw : v.lowWord.bind fun w => branchByte w a.origin <;> rw [hw] at hbs <;> cases hbs
    simp

theorem addCell_adds (c : Code) (cell : Cell) : (addCell c cell).Adds cell.size c := by
  cases cell with
  | byte b =>
    intro a d b h
    cases h
    simp [Cell.size]
  | byteOf e => exact OperandSize.byte.add_adds c e
  | wordOf e => exact OperandSize.word.add_adds c e
  | branch opcode target => exact addBranch_adds c opcode target

theorem foldlM_adds {α : Type} {add : Code → α → Step Code} {size : α → Nat}
    (h : ∀ c x, (add c x).Adds (size x) c) (xs : List α) (c : Code) : (xs.foldlM add c).Adds (xs.map size).sum c := by
  induction xs generalizing c with
  | nil =>
    intro a d b hd
    cases hd
    rfl
  | cons x xs ih =>
    intro a e b he
    rw [List.foldlM_cons] at he
    obtain ⟨d, a', hx, he⟩ := run_bind_inv he
    have hfirst := h c x a d a' hx
    have hrest := ih d a' e b he
    rw [List.map_cons, List.sum_cons]
    omega

/-! ## Bytes appended -/

namespace Assembly

/-- The segments with bytes put behind all others. Without bytes no segment is opened for them. -/
def extended (a : Assembly) (bytes : Array UInt8) : Array Segment := if bytes = #[] then a.segments
  else a.openSegment.segments.modify a.lastSegment fun s => { s with bytes := s.bytes ++ bytes }

/-- Of the segments nothing has changed but that a number of bytes were put behind all others. -/
def Appends (a : Assembly) (n : Nat) (b : Assembly) : Prop :=
  ∃ bytes : Array UInt8, bytes.size = n ∧ b.segments = a.extended bytes

variable {a' : Assembly} {n : Nat}

theorem extended_congr (hs : a'.segments = a.segments) (ht : a'.setup = a.setup)
    (bytes : Array UInt8) : a'.extended bytes = a.extended bytes := by
  have hlast : a'.lastSegment = a.lastSegment := by
    unfold lastSegment
    rw [hs]
  unfold extended
  rw [hs, hlast, openSegment_segments_congr hs ht]

theorem Appends.congr (h : a'.Appends n b) (hs : a'.segments = a.segments)
    (ht : a'.setup = a.setup) : a.Appends n b := by
  obtain ⟨bytes, hn, hb⟩ := h
  exact ⟨bytes, hn, hb.trans (extended_congr hs ht bytes)⟩

theorem emit_segments (h : a.emit code = (.ok (), b)) : b.segments = a.extended code.bytes := by
  unfold extended
  by_cases hempty : code.bytes = #[]
  · rw [emit, if_pos (by simp [hempty])] at h
    rw [if_pos hempty]
    cases h
    rfl
  · rw [if_neg hempty]
    rcases a.emit_cases code with ⟨hne, -⟩ | ⟨-, he⟩ | ⟨s, -, -, he⟩
    · exact absurd hne hempty
    · rw [he] at h
      cases h
    · rw [he] at h
      cases h
      unfold appended
      rw [lastSegment_openSegment]

theorem emit_appends (h : a.emit code = (.ok (), b)) : a.Appends code.bytes.size b := ⟨code.bytes, rfl, emit_segments h⟩

end Assembly

theorem Step.Adds.appends {x : Step Code} {n : Nat} (hx : x.Builds {}) (hn : x.Adds n {})
    (h : (x >>= emitCode).run.run a = (.ok (), b)) : a.Appends n b := by
  obtain ⟨hasked, -⟩ := hx a .nil
  obtain ⟨d, a', hr, h⟩ := run_bind_inv h
  rw [hr] at hasked
  have hd : d.bytes.size = n := by simpa using hn a d a' hr
  rw [← hd]
  exact (Assembly.emit_appends h).congr hasked.segments (Noted.ofAsked hasked).setup

/-- How an operation gets from a state to the one after it. -/
inductive Assembles (m : Cpu.Mnemonic) (ops : List Operand) (a b : Assembly) : Prop where
  | cells {cs : List Cell} (hi : encode a.effectiveModel.hasNextOps m ops = .ok (.cells cs))
    (h : (emitCells cs).run.run a = (.ok (), b))
  | choose {number : Expr} {f : Int64 → Cells} {n : Int64} {c : Assembly} {cs : List Cell}
    (hi : encode a.effectiveModel.hasNextOps m ops = .ok (.choose number f))
    (hn : (evalInt number).run.run a = (.ok n, c)) (hasked : Asked a c) (hf : f n = .ok cs)
    (h : (emitCells cs).run.run c = (.ok (), b))

theorem emitOperation_inv (h : (emitOperation m ops).run.run a = (.ok (), b)) : Assembles m ops a b := by
  obtain ⟨_, _, ⟨⟩, h⟩ := run_bind_inv h
  obtain ⟨i, c, hi, h⟩ := run_bind_inv h
  rw [run_ofExcept, Prod.mk.injEq] at hi
  obtain ⟨hi, rfl⟩ := hi
  cases i with
  | cells cs => exact .cells hi h
  | choose number f =>
    have hasked := evalInt_asked number a
    obtain ⟨n, c, hn, h⟩ := run_bind_inv h
    rw [hn] at hasked
    obtain ⟨cs, d, hf, h⟩ := run_bind_inv h
    rw [run_ofExcept, Prod.mk.injEq] at hf
    obtain ⟨hf, rfl⟩ := hf
    exact .choose hi hn hasked hf h

theorem emitOperation_appends (h : (emitOperation m ops).run.run a = (.ok (), b)) :
    ∃ i cs, encode a.effectiveModel.hasNextOps m ops = .ok i ∧ i.Yields cs ∧ a.Appends (cellsSize cs) b := by
  have hcells (cs : List Cell) {a b : Assembly} (h : (emitCells cs).run.run a = (.ok (), b)) :
      a.Appends (cellsSize cs) b :=
    (foldlM_adds addCell_adds cs {}).appends (foldlM_builds addCell_builds cs {}) h
  cases emitOperation_inv h with
  | cells hi h => exact ⟨_, _, hi, .cells _, hcells _ h⟩
  | choose hi _ hasked hf h =>
    exact ⟨_, _, hi, .choose hf, (hcells _ h).congr hasked.segments (Noted.ofAsked hasked).setup⟩

theorem emitOperation_size {a' b' : Assembly} (hm : a.effectiveModel = a'.effectiveModel)
    (h : (emitOperation m ops).run.run a = (.ok (), b)) (h' : (emitOperation m ops).run.run a' = (.ok (), b')) :
    ∃ n, a.Appends n b ∧ a'.Appends n b' := by
  obtain ⟨i, cs, hi, hy, happ⟩ := emitOperation_appends h
  obtain ⟨i', cs', hi', hy', happ'⟩ := emitOperation_appends h'
  rw [← hm, hi] at hi'
  cases hi'
  rw [← even_encode hi hy hy'] at happ'
  exact ⟨_, happ, happ'⟩

theorem emitValues_appends (size : OperandSize) (es : List Expr)
    (h : (emitValues size.add es).run.run a = (.ok (), b)) : a.Appends (es.length * size.kind.span) b := by
  have hsum : (es.map fun _ => size.kind.span).sum = es.length * size.kind.span := by
    rw [List.map_const', List.sum_replicate_nat]
  rw [← hsum]
  exact (foldlM_adds size.add_adds es {}).appends (foldlM_builds size.add_builds es {}) h

end SpectrumAsm
