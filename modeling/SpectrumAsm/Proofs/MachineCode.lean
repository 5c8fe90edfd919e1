/-
Machine code can be read in one way only.

For every form of every instruction the disassembler reads its code back, whatever stands behind it
(`encode_matches`). So the code of an instruction is a beginning only of code of the same instruction, and a
sequence of instructions can be recovered from its bytes.
-/
import SpectrumAsm.Proofs.Disassembly
import SpectrumAsm.Proofs.Sizes

namespace SpectrumAsm

open SpectrumAsm.Cpu List Opcode

variable {e : Expr} {ops : List Operand} {next : Bool} {m : Mnemonic} {base code : UInt8}
  {i : Instruction} {d : Option (Sign × Expr)} {op : ShiftOp} {n : Int64} {cs : List Cell}

/-! ## Cells with known expressions -/

/-- The bytes of a cell whose expression has to be known. -/
def fillCell : Cell → Step (List UInt8)
  | .byte b => return [b]
  | .byteOf e => return [(← readWord e).toUInt8]
  | .wordOf e => return littleEndian (← readWord e)
  | .branch opcode target => return [opcode, ← readDistance target]

def fillCells : List Cell → Step (List UInt8)
  | [] => return []
  | c :: cs => do
    let bytes ← fillCell c
    let more ← fillCells cs
    return bytes ++ more

theorem wordOfBytes_littleEndian (w : UInt16) : wordOfBytes w.toUInt8 (w >>> 8).toUInt8 = w := by
  have hw := w.toNat_lt
  rw [← UInt16.toNat_inj]
  unfold wordOfBytes
  simp only [UInt16.toNat_ofNat', UInt16.toNat_toUInt8, UInt16.toNat_shiftRight, Nat.reducePow,
    UInt16.reduceToNat, Nat.reduceMod, Nat.shiftRight_eq_div_pow]
  omega

namespace Instruction

theorem fillCells_fixed (bs : List UInt8) (cs : List Cell) :
    fillCells (fixed bs ++ cs) = (bs ++ ·) <$> fillCells cs := by
  induction bs with
  | nil => simp [fixed]
  | cons b bs ih =>
    show fillCells (.byte b :: (fixed bs ++ cs)) = _
    simp [fillCells, fillCell, ih]

theorem fillCells_displacement (d : Option (Sign × Expr)) (cs : List Cell) :
    fillCells (displacement d :: cs) =
      (do let b ← readDisplacement d; (b :: ·) <$> fillCells cs) := by
  rcases d with _ | ⟨_ | _, e⟩ <;> simp [fillCells, fillCell, displacement, readDisplacement]

/-! ## Whatever expressions are worth -/

/-- Bytes that cells can come to, whatever their expressions are worth. -/
inductive Realizes : List Cell → List UInt8 → Prop where
  | nil : Realizes [] []
  | byte {cs bs} (b : UInt8) (h : Realizes cs bs) : Realizes (.byte b :: cs) (b :: bs)
  | byteOf {cs bs} (e : Expr) (b : UInt8) (h : Realizes cs bs) : Realizes (.byteOf e :: cs) (b :: bs)
  | wordOf {cs bs} (e : Expr) (w : UInt16) (h : Realizes cs bs) : Realizes (.wordOf e :: cs) (littleEndian w ++ bs)
  | branch {cs bs} (opcode : UInt8) (e : Expr) (d : UInt8) (h : Realizes cs bs) :
    Realizes (.branch opcode e :: cs) (opcode :: d :: bs)

namespace Realizes

variable {cs : List Cell} {bs : List UInt8}

theorem fixed {pre : List UInt8} (h : Realizes (Instruction.fixed pre ++ cs) bs) :
    ∃ more, bs = pre ++ more ∧ Realizes cs more := by
  induction pre generalizing bs with
  | nil => exact ⟨bs, rfl, h⟩
  | cons b pre ih =>
    cases h with
    | byte _ h =>
      obtain ⟨more, rfl, hmore⟩ := ih h
      exact ⟨more, rfl, hmore⟩

theorem displacement (h : Realizes (displacement d :: cs) bs) : ∃ b more, bs = b :: more ∧ Realizes cs more := by
  rcases d with _ | ⟨_ | _, e⟩ <;> cases h <;> exact ⟨_, _, rfl, ‹_›⟩

end Realizes

/-- What a step reads decides about the bytes of cells, and all that they can come to is among these. -/
structure FilledBy {α : Type} (cs : List Cell) (x : Step α) (bytes : α → List UInt8) : Prop where
  fill : fillCells cs = bytes <$> x
  all {bs : List UInt8} (h : Realizes cs bs) : ∃ v, bs = bytes v

theorem FilledBy.behind {α : Type} {x : Step α} {bytes : α → List UInt8} (h : FilledBy cs x bytes)
    (pre : List UInt8) : FilledBy (fixed pre ++ cs) x fun v => pre ++ bytes v := by
  refine ⟨by rw [fillCells_fixed, h.fill, Functor.map_map], fun hbs => ?_⟩
  obtain ⟨more, rfl, hmore⟩ := hbs.fixed
  obtain ⟨v, rfl⟩ := h.all hmore
  exact ⟨v, rfl⟩

theorem FilledBy.fixed (bs : List UInt8) : FilledBy (fixed bs) (pure ()) fun _ => bs := by
  have hnil : FilledBy [] (pure ()) fun _ => [] := ⟨rfl, fun h => by cases h; exact ⟨(), rfl⟩⟩
  simpa using hnil.behind bs

/-! ## Instructions that are read back -/

/-- The disassembler reads the code of an instruction back: the operands of the source and the cells of the
code ask for the same expressions, and whatever these turn out to be, reading the bytes gives the mnemonic and
its operands. -/
def Matches (m : Mnemonic) (ops : List Operand) : Instruction → Prop
  | .cells cs => ∃ (α : Type) (x : Step α) (bytes : α → List UInt8) (args : α → List Argument),
    FilledBy cs x bytes ∧ readOperands m ops = args <$> x ∧
      ∀ v rest, disassemble (bytes v ++ rest) = some (normal (m, args v), rest)
  | .choose number f => ∃ (α : Type) (x : Step α) (args : Int64 → α → List Argument),
    readOperands m ops = (do let n ← evalInt number; args n <$> x) ∧
      ∀ n cs, f n = .ok cs → ∃ bytes : α → List UInt8, FilledBy cs x bytes ∧
        ∀ v rest, disassemble (bytes v ++ rest) = some (normal (m, args n v), rest)

namespace Matches

theorem fixed (bs : List UInt8) (args : List Argument) (hread : readOperands m ops = pure args)
    (hcode : ∀ rest, disassemble (bs ++ rest) = some (normal (m, args), rest)) :
    Matches m ops (.cells (Instruction.fixed bs)) :=
  ⟨Unit, pure (), fun _ => bs, fun _ => args, .fixed bs, by rw [hread, map_pure], fun _ => hcode⟩

theorem behind {α : Type} {x : Step α} (bs : List UInt8) (bytes : α → List UInt8)
    (args : α → List Argument) (hfill : FilledBy cs x bytes) (hread : readOperands m ops = args <$> x)
    (hcode : ∀ v rest, disassemble (bs ++ (bytes v ++ rest)) = some (normal (m, args v), rest)) :
    Matches m ops (.cells (Instruction.fixed bs ++ cs)) :=
  ⟨α, x, _, args, hfill.behind bs, hread, fun v rest => by rw [append_assoc, hcode]⟩

theorem word (bs : List UInt8) (args : UInt16 → List Argument) (hread : readOperands m ops = args <$> readWord e)
    (hcode : ∀ lo hi rest, disassemble (bs ++ lo :: hi :: rest) = some (normal (m, args (wordOfBytes lo hi)), rest)) :
    Matches m ops (.cells (Instruction.fixed bs ++ [.wordOf e])) := by
  have hfill : FilledBy [.wordOf e] (readWord e) littleEndian := by
    refine ⟨by simp [fillCells, fillCell], fun h => ?_⟩
    cases h with
    | wordOf _ w h => cases h; exact ⟨w, by simp⟩
  refine .behind bs _ _ hfill hread fun w rest => ?_
  refine (hcode _ _ rest).trans ?_
  rw [wordOfBytes_littleEndian]

theorem branch {opcode : UInt8} (args : UInt8 → List Argument) (hread : readOperands m ops = args <$> readDistance e)
    (hcode : ∀ d rest, disassemble (opcode :: d :: rest) = some (normal (m, args d), rest)) :
    Matches m ops (.cells [.branch opcode e]) := by
  refine ⟨UInt8, readDistance e, fun d => [opcode, d], _, ⟨by simp [fillCells, fillCell], fun h => ?_⟩, hread, hcode⟩
  cases h with
  | branch _ _ d h => cases h; exact ⟨d, rfl⟩

theorem displaced (bs : List UInt8) (args : UInt8 → List Argument)
    (hread : readOperands m ops = args <$> readDisplacement d)
    (hcode : ∀ n rest, disassemble (bs ++ n :: rest) = some (normal (m, args n), rest)) :
    Matches m ops (.cells (Instruction.fixed bs ++ [displacement d])) := by
  refine .behind bs (fun b => [b]) _ ⟨?_, fun h => ?_⟩ hread hcode
  · rw [fillCells_displacement]
    simp [fillCells]
  · obtain ⟨b, _, rfl, hnil⟩ := h.displacement
    cases hnil
    exact ⟨b, rfl⟩

theorem byte (bs : List UInt8) (args : UInt16 → List Argument) (hread : readOperands m ops = args <$> readWord e)
    (hcode : ∀ w rest, disassemble (bs ++ w.toUInt8 :: rest) = some (normal (m, args w), rest)) :
    Matches m ops (.cells (Instruction.fixed bs ++ [.byteOf e])) := by
  refine .behind bs (fun w : UInt16 => [w.toUInt8]) _ ⟨by simp [fillCells, fillCell], fun h => ?_⟩ hread hcode
  cases h with
  | byteOf _ b h => cases h; exact ⟨b.toUInt16, by simp⟩

theorem twoBytes (bs : List UInt8) (args : UInt8 → UInt16 → List Argument)
    (hread : readOperands m ops = (do let n ← readDisplacement d; args n <$> readWord e))
    (hcode : ∀ n w rest, disassemble (bs ++ n :: w.toUInt8 :: rest) = some (normal (m, args n w), rest)) :
    Matches m ops (.cells (Instruction.fixed bs ++ [displacement d] ++ [.byteOf e])) := by
  rw [append_assoc, singleton_append]
  refine .behind (x := do let n ← readDisplacement d; (n, ·) <$> readWord e) bs (fun v => [v.1, v.2.toUInt8])
    (fun v => args v.1 v.2) ⟨?_, fun h => ?_⟩ (by rw [hread]; simp) fun _ => hcode _ _
  · rw [fillCells_displacement]
    simp [fillCells, fillCell]
  · obtain ⟨b, _, rfl, hrest⟩ := h.displacement
    cases hrest with
    | byteOf _ b' hnil => cases hnil; exact ⟨(b, b'.toUInt16), by simp⟩

end Matches

/-! ## Loads -/

theorem load_matches (h : load ops = .ok cs) : Matches .ld ops (.cells cs) := by
  unfold load at h
  split at h <;> (try split at h) <;> cases h
  next h =>
  unfold load? at h
  repeat' first
    | split at h
    | unfold loadReg8 at h
    | unfold loadHalfIndex at h
    | unfold loadPair at h
    | unfold loadMemory at h
  all_goals cases h
  all_goals first
    | refine .fixed _ _ rfl fun rest => ?_
    | refine .byte _ _ (by simp; rfl) fun n rest => ?_
    | refine .word _ _ (by simp; rfl) fun lo hi rest => ?_
    | refine .displaced _ _ (by simp; rfl) fun n rest => ?_
    | refine .twoBytes _ _ (by simp; rfl) fun n n' rest => ?_
  all_goals (try casesm* Reg8, HalfIndex, Index, Pair) <;> first | rfl | simp_all [HalfIndex.owner]

/-! ## Arithmetic -/

section
variable {op : AluOp} {cs : List Cell}

theorem step_matches {down : UInt8} (hm : (m, down) = (.inc, 0) ∨ (m, down) = (.dec, 1))
    (h : step m down ops = .ok cs) : Matches m ops (.cells cs) := by
  rcases hm with hm | hm <;> cases hm <;> unfold step at h <;> split at h <;> cases h <;> first
    | refine .fixed _ _ rfl fun rest => ?_
    | refine .displaced _ _ (by simp; rfl) fun n rest => ?_
  all_goals (try casesm* Reg8, HalfIndex, Index, Pair) <;> rfl

theorem normal_single (hm : m ≠ .ret) (x : Argument) : normal (m, [x]) = (m, [x]) := by
  unfold normal
  split <;> simp_all

/-- The operands of an accumulator operation: the accumulator itself comes first or is left out. -/
inductive AccumulatorForm (op : AluOp) (src : Operand) : List Operand → Prop where
  | full : AccumulatorForm op src [.reg8 .a, src]
  | short (h : op.needsAccumulator = false) : AccumulatorForm op src [src]

theorem AccumulatorForm.read (hops : AccumulatorForm op src ops) (hm : m.alu = some op) :
    ∃ args : Argument → List Argument, (src.isWide = false → readOperands m ops = args <$> readOperand m .byte src) ∧
      ∀ x, normal (m, args x) = aluGround op x := by
  have hfield (hwide : ops.any Operand.isWide = false) : expressionField m ops = .byte := by
    cases m <;> cases hm <;> simp [hwide]
  cases hops with
  | full =>
    refine ⟨fun x => [.reg8 .a, x], fun hwide => ?_, fun x => ?_⟩
    · have hread : readOperand m .byte (.reg8 .a) = pure (.reg8 .a) := rfl
      rw [readOperands, hfield (by simp only [any_cons, hwide]; rfl), mapM_cons, mapM_cons,
        mapM_nil, hread]
      simp
    · cases m <;> cases hm <;> rfl
  | short h =>
    refine ⟨fun x => [x], fun hwide => ?_, fun x => ?_⟩
    · rw [readOperands, hfield (by simp only [any_cons, hwide]; rfl), mapM_cons, mapM_nil]
      simp
    · have hret : m ≠ .ret := by
        rintro rfl
        cases hm
      rw [normal_single hret]
      cases m <;> cases hm <;> first | rfl | exact absurd h (by decide)

theorem accumulator_matches {src : Operand} (hm : m.alu = some op) (hops : AccumulatorForm op src ops)
    (h : accumulator m op src = .ok cs) : Matches m ops (.cells cs) := by
  obtain ⟨args, hread, hnormal⟩ := hops.read hm
  have hinput : (m == .inp) = false := by cases m <;> first | rfl | cases hm
  unfold accumulator at h
  split at h <;> cases h <;> first
    | refine .fixed _ _ (hread rfl) fun rest => ?_
    | refine .displaced _ _ (by rw [hread rfl]; simp; rfl) fun n rest => ?_
    | refine .byte _ _ (by rw [hread rfl]; simp [hinput]; rfl) fun n rest => ?_
  all_goals rw [hnormal]; cases op <;> (try casesm* Reg8, HalfIndex, Index) <;> rfl

theorem arithmetic_matches (hm : m.alu = some op) (h : arithmetic next m op ops = .ok cs) :
    Matches m ops (.cells cs) := by
  unfold arithmetic at h
  split at h
  · exact accumulator_matches hm .full h
  · split at h
    · next hneeds =>
      cases m <;> cases hm <;> cases hneeds
      all_goals
        repeat' first
          | split at h
          | unfold addPair at h
          | unfold addIndex at h
          | unfold onNext at h
      all_goals cases h
      all_goals first
        | refine .fixed _ _ rfl fun rest => ?_
        | refine .word _ _ (by simp; rfl) fun lo hi rest => ?_
      all_goals (try casesm* Reg8, Index, Pair) <;> first | rfl | simp_all
    · cases h
  · split at h
    · cases h
    · next hneeds => exact accumulator_matches hm (.short (by simpa using hneeds)) h
  · cases h

end

/-! ## Bits and shifts -/

/-- What the opcodes behind `CB` that begin with `code` mean, whatever their last field says. -/
def BitCode (code : UInt8) (i : List Argument → Ground) : Prop :=
  ∀ z : Fin 8, low (code ||| UInt8.ofNat z) = UInt8.ofNat z ∧
    ∀ args, bitGround (code ||| UInt8.ofNat z) args = i args

theorem bitCode_shift (hm : m.shift = some op) : BitCode (mid op.code) fun args => (m, args) := by
  have hfields : ∀ z : Fin 8, high (mid op.code ||| UInt8.ofNat z) = 0 ∧
      middle (mid op.code ||| UInt8.ofNat z) = op.code ∧
      low (mid op.code ||| UInt8.ofNat z) = UInt8.ofNat z := by
    cases op <;> decide
  intro z
  obtain ⟨hhigh, hmiddle, hlow⟩ := hfields z
  refine ⟨hlow, fun args => ?_⟩
  unfold bitGround
  rw [hhigh, hmiddle]
  cases m <;> cases hm <;> rfl

theorem small_number {k : Nat} (hlow : 0 ≤ n) (hhigh : n ≤ Int64.ofNat k) (hk : k < 0x100) :
    ∃ y, y ≤ k ∧ UInt8.ofInt n.toInt = UInt8.ofNat y ∧ n = Int64.ofNat y := by
  have hle := Int64.le_iff_toInt_le.1 hhigh
  have hnonneg : 0 ≤ n.toInt := Int64.le_iff_toInt_le.1 hlow
  rw [Int64.toInt_ofNat_of_lt (by omega)] at hle
  refine ⟨n.toInt.toNat, by omega, ?_, ?_⟩
  · unfold UInt8.ofInt
    rw [Int.emod_eq_of_lt hnonneg (by omega)]
  · rw [← Int64.ofInt_eq_ofNat, Int.toNat_of_nonneg hnonneg, Int64.ofInt_toInt]

theorem bitCode_bit (hm : m.bitBase = some base) (hn : 0 ≤ n ∧ n ≤ 7) :
    BitCode (base ||| mid (UInt8.ofInt n.toInt)) fun args => (m, .value (.number n) :: args) := by
  obtain ⟨y, hle, hy, rfl⟩ := small_number (k := 7) hn.1 hn.2 (by omega)
  rw [hy]
  have hfields : ∀ y z : Fin 8, high (base ||| mid (UInt8.ofNat y) ||| UInt8.ofNat z) = base >>> 6 ∧
      middle (base ||| mid (UInt8.ofNat y) ||| UInt8.ofNat z) = UInt8.ofNat y ∧
      low (base ||| mid (UInt8.ofNat y) ||| UInt8.ofNat z) = UInt8.ofNat z := by
    cases m <;> cases hm <;> decide
  intro z
  obtain ⟨hhigh, hmiddle, hlow⟩ := hfields ⟨y, by omega⟩ z
  refine ⟨hlow, fun args => ?_⟩
  unfold bitGround
  rw [hhigh, hmiddle]
  have hsame : (UInt8.ofNat y).toNat = y := by
    rw [UInt8.toNat_ofNat']
    omega
  rw [hsame]
  cases m <;> cases hm <;> rfl

theorem code_eq (reg : Reg8) : ∃ z : Fin 8, reg.code = UInt8.ofNat z ∧ UInt8.ofNat z ≠ 6 ∧
    Reg8.ofCode (UInt8.ofNat z) = reg := by
  cases reg <;> decide

theorem BitCode.target {i : List Argument → Ground} (h : BitCode code i) (z : Fin 8) (rest : List UInt8) :
    disassemble (0xCB :: (code ||| UInt8.ofNat z) :: rest) = some (i [fieldArgument (UInt8.ofNat z)], rest) := by
  have hread (b : UInt8) : disassemble (0xCB :: b :: rest) =
    some (bitGround b [fieldArgument (low b)], rest) := rfl
  rw [hread, (h z).1, (h z).2]

theorem BitCode.indexed {i : List Argument → Ground} (h : BitCode code i) (reg : Index) (d : UInt8)
    (z : Fin 8) (rest : List UInt8) : disassemble (reg.lead :: 0xCB :: d :: (code ||| UInt8.ofNat z) :: rest) =
      some (i (.indexed reg d :: if UInt8.ofNat z == 6 then [] else [.reg8 (.ofCode (UInt8.ofNat z))]), rest) := by
  have hread (b : UInt8) : disassemble (reg.lead :: 0xCB :: d :: b :: rest) = some (bitGround b (.indexed reg d ::
        if low b == 6 then [] else [.reg8 (.ofCode (low b))]), rest) := by
    cases reg <;> rfl
  rw [hread, (h z).1, (h z).2]

/-- What stands behind `CB` is read back, with the target and the register for a copy. -/
theorem bitwise_reads (m : Mnemonic) (field : Field) (target : Operand) (copy : Option Reg8) :
    ∃ (α : Type) (x : Step α) (args : α → List Argument),
      (target :: (copy.map Operand.reg8).toList).mapM (readOperand m field) = args <$> x ∧
      ∀ code i cs, BitCode code i → bitwise m code target copy = .ok cs →
        ∃ bytes : α → List UInt8, FilledBy cs x bytes ∧
          ∀ v rest, disassemble (bytes v ++ rest) = some (i (args v), rest) := by
  by_cases hvalid : ∃ code cs, bitwise m code target copy = .ok cs
  · obtain ⟨code, cs, h⟩ := hvalid
    unfold bitwise at h
    split at h <;> cases h
    · next reg =>
      refine ⟨Unit, pure (), fun _ => [.reg8 reg], rfl, fun code i cs hcode h => ?_⟩
      cases h
      refine ⟨fun _ => [0xCB, code ||| reg.code], .fixed _, fun _ rest => ?_⟩
      obtain ⟨z, hz, hne, hreg⟩ := code_eq reg
      rw [hz]
      refine (hcode.target z rest).trans ?_
      rw [fieldArgument, if_neg (by simpa using hne), hreg]
    · refine ⟨Unit, pure (), fun _ => [.viaPair .hl], rfl, fun code i cs hcode h => ?_⟩
      cases h
      exact ⟨fun _ => [0xCB, code ||| 6], .fixed _, fun _ rest => hcode.target 6 rest⟩
    · next reg disp =>
      refine ⟨UInt8, readDisplacement disp,
        fun n => .indexed reg n :: (copy.map Argument.reg8).toList, ?_, fun code i cs hcode h => ?_⟩
      · cases copy <;> simp
      · cases h
        refine ⟨fun n => [reg.lead, 0xCB, n, code ||| (copy.map Reg8.code).getD 6], ?_, fun n rest => ?_⟩
        · have hfill (bs : List UInt8) :
              FilledBy (displacement disp :: fixed bs) (readDisplacement disp) (· :: bs) := by
            refine ⟨by simp [fillCells_displacement, (FilledBy.fixed bs).fill], fun h => ?_⟩
            obtain ⟨b, _, rfl, hrest⟩ := h.displacement
            obtain ⟨-, rfl⟩ := (FilledBy.fixed bs).all hrest
            exact ⟨b, rfl⟩
          exact (hfill _).behind [reg.lead, 0xCB]
        · cases copy with
          | none => exact hcode.indexed reg n 6 rest
          | some copy =>
            obtain ⟨z, hz, hne, hcopy⟩ := code_eq copy
            rw [Option.map_some, Option.getD_some, hz]
            refine (hcode.indexed reg n z rest).trans ?_
            rw [if_neg (by simpa using hne), hcopy]
            rfl
  · refine ⟨List Argument, _, id, (id_map _).symm, fun code i cs _ h => ?_⟩
    exact absurd ⟨code, cs, h⟩ hvalid

section
variable {cs : List Cell}

theorem normal_bitwise {args : List Argument} (hm : m.shift.isSome ∨ m.bitBase.isSome) :
    normal (m, args) = (m, args) := by
  cases m <;> first | rfl | (rcases hm with hm | hm <;> cases hm)

theorem shift_matches (hm : m.shift = some op) (h : shift m op ops = .ok cs) : Matches m ops (.cells cs) := by
  have hcode := bitCode_shift hm
  have hnormal (args : List Argument) : normal (m, args) = (m, args) := normal_bitwise (.inl (by rw [hm]; rfl))
  unfold shift at h
  split at h
  · next target =>
    obtain ⟨α, x, args, hread, hreads⟩ := bitwise_reads m (expressionField m [target]) target none
    obtain ⟨bytes, hfill, hbytes⟩ := hreads _ _ _ hcode h
    exact ⟨α, x, bytes, args, hfill, hread, fun v rest => by rw [hnormal, hbytes]⟩
  · next reg disp copy =>
    obtain ⟨α, x, args, hread, hreads⟩ := bitwise_reads m
      (expressionField m [.indexed reg disp, .reg8 copy]) (.indexed reg disp) (some copy)
    obtain ⟨bytes, hfill, hbytes⟩ := hreads _ _ _ hcode h
    exact ⟨α, x, bytes, args, hfill, hread, fun v rest => by rw [hnormal, hbytes]⟩
  · cases h

theorem bit_matches (hm : m.bitBase = some base) (number : Expr) (target : Operand)
    (copy : Option Reg8) : Matches m (.expr number :: target :: (copy.map Operand.reg8).toList)
      (.choose number (bit m base target copy)) := by
  have hfield (ops : List Operand) : expressionField m ops = .number := by
    cases m <;> first | rfl | cases hm
  have hinput : (m == .inp) = false := by cases m <;> first | rfl | cases hm
  obtain ⟨α, x, args, hread, hreads⟩ := bitwise_reads m .number target copy
  refine ⟨α, x, fun n v => .value (.number n) :: args v, ?_, fun n cs h => ?_⟩
  · rw [readOperands, hfield, mapM_cons, hread]
    simp [hinput]
  · unfold bit at h
    split at h
    · next hn =>
      obtain ⟨bytes, hfill, hbytes⟩ := hreads _ _ _ (bitCode_bit hm hn) h
      refine ⟨bytes, hfill, fun v rest => ?_⟩
      rw [normal_bitwise (.inr (by rw [hm]; rfl)), hbytes]
    · cases h

theorem bits_matches (hm : m.bitBase = some base) (h : bits m base ops = .ok i) : Matches m ops i := by
  unfold bits at h
  split at h <;> cases h
  · next number target => exact bit_matches hm number target none
  · next number reg disp copy => exact bit_matches hm number (.indexed reg disp) (some copy)

end

/-! ## All instructions -/

theorem condition_eq {cc : Operand} {flag : Condition} (h : condition? cc = some flag) :
    cc = .cond flag ∨ cc = .reg8 .c ∧ flag = .c := by
  unfold condition? at h
  split at h <;> cases h
  · exact .inl rfl
  · exact .inr ⟨rfl, rfl⟩

theorem Matches.number {number : Expr} {f : Int64 → Cells} (args : Int64 → List Argument)
    (hread : readOperands m ops = args <$> evalInt number)
    (hcode : ∀ n cs, f n = .ok cs → ∃ bs, cs = Instruction.fixed bs ∧
      ∀ rest, disassemble (bs ++ rest) = some (normal (m, args n), rest)) : Matches m ops (.choose number f) := by
  refine ⟨Unit, pure (), fun n _ => args n, by rw [hread]; simp, fun n cs h => ?_⟩
  obtain ⟨bs, rfl, hbs⟩ := hcode n cs h
  exact ⟨fun _ => bs, .fixed bs, fun _ => hbs⟩

theorem restart_matches (number : Expr) : Matches .rst [.expr number] (.choose number restart) := by
  refine .number (fun n => [.value (.number n)]) (by simp) fun n cs h => ?_
  unfold restart at h
  split at h <;> cases h
  next hn =>
  obtain ⟨y, hle, hy, rfl⟩ := small_number (k := 0x38) hn.2.1 hn.2.2 (by omega)
  have hdivides := hn.1
  rw [Int64.toInt_ofNat_of_lt (by omega)] at hdivides
  obtain ⟨k, rfl⟩ : ∃ k, y = 8 * k := ⟨y / 8, by omega⟩
  have hk : k < 8 := by omega
  refine ⟨_, rfl, fun rest => ?_⟩
  rw [hy]
  rcases k with _ | _ | _ | _ | _ | _ | _ | _ | k <;> first | rfl | omega

theorem interruptMode_matches (number : Expr) : Matches .im [.expr number] (.choose number interruptMode) := by
  refine .number (fun n => [.value (.number n)]) (by simp) fun n cs h => ?_
  unfold interruptMode at h
  repeat' split at h
  all_goals cases h
  all_goals next hn => subst hn; exact ⟨_, rfl, fun rest => rfl⟩

theorem output_matches (h : output ops = .ok i) : Matches .out ops i := by
  unfold output at h
  split at h <;> cases h
  · exact .byte _ (fun w => [.memory (.byte w.toUInt8), .reg8 .a]) (by simp) fun w rest => rfl
  · next reg => exact .fixed _ [.portC, .reg8 reg] rfl fun rest => by cases reg <;> rfl
  · refine .number (fun n => [.portC, .value (.number n)]) (by simp) fun n cs h => ?_
    unfold outputValue at h
    split at h <;> cases h
    next hn =>
    subst hn
    exact ⟨[0xED, 0x71], rfl, fun rest => rfl⟩

theorem opcode_eq (code : UInt16) :
    opcode code = fixed (if code > 0xFF then [(code >>> 8).toUInt8, code.toUInt8] else [code.toUInt8]) := by
  unfold opcode
  split <;> rfl

theorem plain_matches {code : UInt16} (hm : m.plainOpcode = some code)
    (h : plain m code ops = .ok cs) : Matches m ops (.cells cs) := by
  unfold plain at h
  split at h
  · cases h
    rw [opcode_eq]
    refine .fixed _ [] rfl fun rest => ?_
    cases m <;> cases hm <;> rfl
  · split at h <;> cases h
    next hmul =>
    obtain rfl := beq_iff_eq.1 hmul
    cases hm
    exact .fixed [0xED, 0x30] [.reg8 .d, .reg8 .e] rfl fun rest => rfl
  · cases h

theorem matches_of_map {x : Cells} (h : cells <$> x = .ok i)
    (hx : ∀ cs, x = .ok cs → Matches m ops (.cells cs)) : Matches m ops i := by
  cases x with
  | error fault => cases h
  | ok cs =>
    cases h
    exact hx cs rfl

theorem nextRegister_matches (h : nextRegister ops = .ok cs) : Matches .nextreg ops (.cells cs) := by
  unfold nextRegister at h
  split at h <;> cases h
  · exact .byte [0xED, 0x92] (fun w => [.value (.byte w.toUInt8), .reg8 .a]) (by simp) fun w rest => rfl
  · next reg value =>
    exact .twoBytes [0xED, 0x91] (fun n w => [.value (.byte n), .value (.byte w.toUInt8)])
      (by simp [readDisplacement]) (fun n w rest => rfl) (d := some (.plus, reg))

/-- Instructions that move control, and those on the stack and on ports. -/
theorem withOperands_matches (h : withOperands next m ops = .ok i) : Matches m ops i := by
  unfold withOperands at h
  split at h
  case h_1 => exact matches_of_map h fun cs => load_matches
  case h_2 => exact matches_of_map h fun cs => step_matches (.inl rfl)
  case h_3 => exact matches_of_map h fun cs => step_matches (.inr rfl)
  case h_14 => exact output_matches h
  case h_18 => exact matches_of_map h fun cs => nextRegister_matches
  case h_19 =>
    split at h
    · exact matches_of_map h fun cs => arithmetic_matches ‹_›
    · exact matches_of_map h fun cs => shift_matches ‹_›
    · exact bits_matches ‹_› h
    · cases h
  all_goals try refine matches_of_map h fun cs h => ?_
  all_goals
    repeat' first
      | split at h
      | unfold relative at h
      | unfold onNext at h
      | unfold jump at h
      | unfold jumpRelative at h
      | unfold call at h
      | unfold ret at h
      | unfold stack at h
      | unfold exchange at h
      | unfold input at h
      | unfold mirror at h
  all_goals cases h
  all_goals try rcases condition_eq ‹condition? _ = _› with rfl | ⟨rfl, rfl⟩
  all_goals first
    | exact restart_matches _
    | exact interruptMode_matches _
    | refine .fixed _ _ rfl fun rest => ?_
    | refine .branch _ (by simp; rfl) fun d rest => ?_
    | refine .word _ _ (by simp; rfl) fun lo hi rest => ?_
    | refine .byte _ _ (by simp; rfl) fun n rest => ?_
  all_goals (try casesm* Reg8, Condition, Index, Pair) <;> first
    | rfl
    | exact absurd ‹Condition.isRelative _ = true› (by decide)
    | simp_all

/-- The code of every instruction is read back. -/
theorem encode_matches (h : encode next m ops = .ok i) : Matches m ops i := by
  unfold encode at h
  split at h
  · cases h
  split at h
  · next code hcode => exact matches_of_map h fun cs => plain_matches hcode
  · exact withOperands_matches h

end Instruction

end SpectrumAsm
