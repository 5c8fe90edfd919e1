/-
Relative branches whose target is known only later.

A branch to a known target is measured from `$` on its line, one that has to wait from the address its segment
gives to the opcode when the patch is settled. The displacement of the segment can have been set again by then.
-/
import Mathlib.Data.Int.ModEq
import SpectrumAsm.Proofs.Walking

namespace SpectrumAsm

open List Assembly Stmt

variable {g s : Segment} {a : Assembly}

/-! ## Distances -/

theorem toNat_ofInt_word (z : Int) : (UInt16.ofInt z).toNat = (z % 0x10000).toNat := by
  simp only [UInt16.ofInt, UInt16.toNat_ofNat', Nat.reducePow, Int.reducePow]
  omega

theorem ofInt_word_eq_iff {x y : Int} : UInt16.ofInt x = UInt16.ofInt y ↔ x ≡ y [ZMOD 0x10000] := by
  rw [← UInt16.toNat_inj, toNat_ofInt_word, toNat_ofInt_word]
  unfold Int.ModEq
  omega

theorem toNat_ofInt_byte (z : Int) : (UInt8.ofInt z).toNat = (z % 0x100).toNat := by
  simp only [UInt8.ofInt, UInt8.toNat_ofNat', Nat.reducePow, Int.reducePow]
  omega

theorem branchByte_eq (target address : UInt16) : branchByte target address =
    if -128 ≤ branchDistance target.toNat address ∧ branchDistance target.toNat address ≤ 127 then
      .ok (UInt8.ofInt (branchDistance target.toNat address))
    else .error (.relativeJump (branchDistance target.toNat address)) := by
  unfold branchByte relativeByte
  dsimp only
  split
  · next b hb =>
    split at hb
    · next h => rw [if_pos h]; cases hb; rfl
    · cases hb
  · next hb =>
    split at hb
    · cases hb
    · next h => rw [if_neg h]

theorem branchByte_inj {target address other : UInt16} :
    branchByte target address = branchByte target other ↔ address = other := by
  refine ⟨fun h => ?_, fun h => by rw [h]⟩
  suffices hd : branchDistance target.toNat address = branchDistance target.toNat other by
    unfold branchDistance at hd
    apply UInt16.toNat_inj.1
    omega
  rw [branchByte_eq, branchByte_eq] at h
  generalize branchDistance target.toNat address = d at h
  generalize branchDistance target.toNat other = d' at h
  split at h
  · split at h
    · have hbyte := congrArg UInt8.toNat (Except.ok.inj h)
      rw [toNat_ofInt_byte, toNat_ofInt_byte] at hbyte
      omega
    · cases h
  · split at h
    · cases h
    · cases h
      rfl

/-! ## Lines with a branch -/

/-- Operations that are relative branches, with their opcode and target. -/
inductive BranchLine : Cpu.Mnemonic → List Operand → UInt8 → Expr → Prop where
  | jr (target : Expr) : BranchLine .jr [.expr target] 0x18 target
  | jrIf {cc : Operand} {flag : Cpu.Condition} (hcc : Instruction.condition? cc = some flag)
    (hflag : flag.isRelative = true) (target : Expr) :
    BranchLine .jr [cc, .expr target] (0x20 ||| Instruction.mid flag.code) target
  | djnz (target : Expr) : BranchLine .djnz [.expr target] 0x10 target

namespace BranchLine

variable {m : Cpu.Mnemonic} {operands : List Operand} {opcode : UInt8} {target : Expr}

theorem encode (h : BranchLine m operands opcode target) (next : Bool) :
    Instruction.encode next m operands = .ok (.cells [.branch opcode target]) := by
  cases h with
  | jr => rfl
  | jrIf hcc hflag =>
    show Except.map Instruction.cells (Instruction.jumpRelative _) = _
    unfold Instruction.jumpRelative
    dsimp only
    rw [hcc]
    dsimp only
    rw [if_pos hflag]
    rfl
  | djnz => rfl

theorem hasParam (h : BranchLine m operands opcode target) (hp : target.params = []) :
    (op m operands).hasParam = false := by
  cases h with
  | jr => simp [hasParam, operandParams, operands, exprs, Operand.expr?, hp]
  | jrIf hcc =>
    unfold Instruction.condition? at hcc
    split at hcc
    · simp [hasParam, operandParams, operands, exprs, Operand.expr?, hp]
    · simp [hasParam, operandParams, operands, exprs, Operand.expr?, hp]
    · cases hcc
  | djnz => simp [hasParam, operandParams, operands, exprs, Operand.expr?, hp]

end BranchLine

/-! ## The state on the line -/

namespace Assembly

def displacement (a : Assembly) : Int32 := (a.segments.back?.bind (·.displacement)).getD 0

/-- The state in which the operation of a line is carried out. -/
def atOperation (a : Assembly) (line : SourceLine) : Assembly :=
  (({ a.moveTo line.pos with opened := none } : Assembly).bindLineLabel line).recordLine line.pos

theorem bindLabel_if (a : Assembly) (name : String) (address : UInt16) :
    let key := Text.upcase name
    let slot := a.symbols.labelSlot key
    let label : Symbol := ⟨key, .label, some (.int (Int64.ofNat address.toNat)), a.pos⟩
    a.bindLabel name address = if a.symbols.isTaken slot key then a.report (.labelDefined name)
      else { a with symbols := a.symbols.addSymbol slot label } := by
  unfold bindLabel define
  dsimp only
  cases a.symbols.isTaken (a.symbols.labelSlot (Text.upcase name)) (Text.upcase name) <;> rfl

theorem bindLabel_eq (a : Assembly) (name : String) (address : UInt16) :
    ∃ symbols diagnostics, a.bindLabel name address = { a with symbols, diagnostics } := by
  rw [bindLabel_if]
  split
  · exact ⟨_, _, rfl⟩
  · exact ⟨_, _, rfl⟩

theorem flushLabel_eq (a : Assembly) : ∃ symbols diagnostics,
    a.flushLabel = { a with symbols, diagnostics, hanging := none } := by
  unfold flushLabel
  split
  · next h => exact ⟨a.symbols, a.diagnostics, by rw [← h]⟩
  · next name labelPos _ =>
    obtain ⟨_, _, h⟩ := bindLabel_eq { a with hanging := none, pos := labelPos } name a.address
    dsimp only
    rw [h]
    exact ⟨_, _, rfl⟩

theorem flushLabel_idle (h : a.hanging = none) : a.flushLabel = a := by
  unfold flushLabel
  rw [h]

theorem bindLineLabel_eq (a : Assembly) (line : SourceLine) : ∃ symbols diagnostics hanging,
    a.bindLineLabel line = { a with symbols, diagnostics, hanging } := by
  obtain ⟨_, _, hflush⟩ := a.flushLabel_eq
  unfold bindLineLabel
  split
  · obtain ⟨_, _, h⟩ := bindLabel_eq a.flushLabel _ a.flushLabel.address
    rw [h, hflush]
    exact ⟨_, _, _, rfl⟩
  · exact ⟨_, _, _, hflush⟩

theorem opened_bindLineLabel (a : Assembly) (line : SourceLine) : (a.bindLineLabel line).opened = a.opened := by
  obtain ⟨_, _, _, hbound⟩ := a.bindLineLabel_eq line
  rw [hbound]

theorem atOperation_eq (a : Assembly) (line : SourceLine) :
    (a.atOperation line).segments = a.segments ∧ (a.atOperation line).setup = a.setup ∧
      (a.atOperation line).origin = a.address := by
  unfold atOperation
  obtain ⟨_, _, _, h⟩ := bindLineLabel_eq { a.moveTo line.pos with opened := none } line
  rw [h]
  exact ⟨rfl, rfl, rfl⟩

end Assembly

theorem walkSingle_operation {line : SourceLine} {m : Cpu.Mnemonic} {operands : List Operand}
    (hstmt : line.stmt = some (.op m operands)) (hp : (op m operands).hasParam = false)
    (walk : Option LineWalker) (a : Assembly) : (walkSingle walk line).run (a.moveTo line.pos) =
      (reporting (emitOperation m operands)).run (a.atOperation line) := by
  unfold walkSingle
  rw [hstmt]
  show StateT.run (if _ then _ else _ : Walk Unit) { a.moveTo line.pos with opened := none } = _
  rw [hp]
  rfl

section
variable {m : Cpu.Mnemonic} {operands : List Operand} {opcode : UInt8} {target : Expr}

theorem run_emitOperation_branch (h : BranchLine m operands opcode target) (a : Assembly) :
    (emitOperation m operands).run.run a = match (addBranch {} opcode target).run.run a with
      | (.ok code, b) => b.emit code
      | (.error fault, b) => (.error fault, b) := by
  have hcells : (emitCells [.branch opcode target]).run.run a =
      match (addBranch {} opcode target).run.run a with
      | (.ok code, b) => b.emit code
      | (.error fault, b) => (.error fault, b) := by
    unfold emitCells
    rw [foldlM_cons, Step.run_bind, Step.run_bind]
    have hcell : addCell {} (.branch opcode target) = addBranch {} opcode target := rfl
    rw [hcell]
    obtain ⟨fault | code, b⟩ := (addBranch {} opcode target).run.run a
    · rfl
    · rfl
  refine Eq.trans ?_ hcells
  unfold emitOperation
  rw [Step.run_bind, Step.run_get]
  dsimp only
  rw [h.encode, Step.run_ofExcept_bind]

/-- A branch whose target waits: two bytes at the end of the segment, and a patch at the first. -/
theorem branch_queued (h : BranchLine m operands opcode target) {names : List String}
    (hpending : (a.evalAt a.place target).1 = .ok (.pending names)) (hfits : a.stop + 2 ≤ memoryEnd) :
    ∃ b, (emitOperation m operands).run.run a = (.ok (), b) ∧
      a.patchFor (a.segmentSize a.lastSegment) (.branch, 0, target) ∈ b.pending ∧
      ∃ s : Segment, a.openSegment.segments[a.lastSegment]? = some s ∧ s.bytes.size = a.segmentSize a.lastSegment ∧
        b.segments[a.lastSegment]? = some { s with bytes := s.bytes ++ #[opcode, 0] } := by
  let code := (({} : Code).addHole .branch target).add [opcode, 0]
  have hbytes : code.bytes = #[opcode, 0] := by simp [code]
  have hasked := Asked.evalAt a a.place target
  have hadd : (addBranch {} opcode target).run.run a = (.ok code, (a.evalAt a.place target).2) := by
    rw [addBranch_enters {} opcode target a]
    rcases he : a.evalAt a.place target with ⟨fault | v | names', b⟩ <;> rw [he] at hpending
    · cases hpending
    · cases hpending
  generalize (a.evalAt a.place target).2 = a' at hasked hadd
  have hnoted := Noted.ofAsked hasked
  have hstop : a'.stop = a.stop := by
    unfold stop
    rw [hnoted.segments, hnoted.setup]
  have hemit : ∃ b, a'.emit code = (.ok (), b) := by
    rcases a'.emit_cases code with ⟨-, he⟩ | ⟨hfull, -⟩ | ⟨s, -, -, he⟩
    · exact ⟨_, he⟩
    · rw [stop_openSegment, hstop, hbytes] at hfull
      simp only [size_toArray, length_cons, length_nil] at hfull
      omega
    · exact ⟨_, he⟩
  obtain ⟨b, hb⟩ := hemit
  refine ⟨b, by rw [run_emitOperation_branch h, hadd]; exact hb, ?_⟩
  obtain ⟨hqueue, s, hs, hsize, hend⟩ := emit_ok hb (by rw [hbytes]; simp)
  have hbase : a'.segmentSize a'.lastSegment = a.segmentSize a.lastSegment := by
    rw [hnoted.lastSegment, segmentSize_congr hnoted.segments]
  rw [hnoted.lastSegment] at hs hend
  rw [openSegment_segments_congr hnoted.segments hnoted.setup] at hs
  rw [hbytes] at hend
  refine ⟨?_, s, hs, hsize.trans hbase, hend⟩
  rw [hqueue, hbase]
  refine Array.mem_append_right _ (mem_toArray.2 (mem_map.2 ⟨(.branch, 0, target), ?_, ?_⟩))
  · simp [code]
  · exact hasked.patchFor _ _

end

/-! ## The address of a branch -/

theorem address_eq (hs : a.openSegment.segments[a.lastSegment]? = some s) :
    a.address = s.here ∧ a.displacement = s.displacement.getD 0 := by
  by_cases h : a.segments = #[]
  · rw [openSegment_of_empty h] at hs
    have hlast : a.lastSegment = 0 := by simp [lastSegment, h]
    rw [hlast] at hs
    cases hs
    have hstart (w : UInt16) : w = UInt16.ofInt w.toNat := by
      have := w.toNat_lt
      rw [← UInt16.toNat_inj, toNat_ofInt_word]
      omega
    refine ⟨?_, by simp [displacement, h]⟩
    unfold address
    rw [h]
    simpa [Segment.here, Segment.wordAt, Segment.addressAt] using hstart a.setup.options.defaultStart
  · rw [openSegment_of_size_pos (Array.size_pos_iff.2 h)] at hs
    have hback : a.segments.back? = some s := by
      rw [← hs, Array.back?_eq_getElem?]
      rfl
    unfold address displacement
    rw [hback]
    exact ⟨rfl, rfl⟩

theorem wordAt_eq_iff (hstart : g.start = s.start) (offset : Nat) : g.wordAt offset = s.wordAt offset ↔
      (g.displacement.getD 0).toInt ≡ (s.displacement.getD 0).toInt [ZMOD 0x10000] := by
  unfold Segment.wordAt Segment.addressAt
  rw [ofInt_word_eq_iff, hstart]
  unfold Int.ModEq
  omega

/-- A branch that waits for its target is queued as a patch at its opcode. However the assembly goes on, the
distance that is patched in, or the fault, is that of a branch at the address which the segment `g` gives to
the opcode by then. It is what the same branch has on its line with a known target exactly if the displacement
of the segment is still the same, up to a multiple of the address space. -/
theorem branch_forward_agrees_iff {x : Assembly} {line : SourceLine} {m : Cpu.Mnemonic}
    {operands : List Operand} {opcode : UInt8} {target : Expr} {names : List String}
    (hstmt : line.stmt = some (.op m operands)) (hbranch : BranchLine m operands opcode target)
    (hpending : ((x.atOperation line).evalAt (x.atOperation line).place target).1 = .ok (.pending names))
    (hfits : x.stop + 2 ≤ memoryEnd) (walk : Option LineWalker) :
    ∃ p ∈ ((walkSingle walk line).run (x.moveTo line.pos)).2.pending, p.kind = .branch ∧
      p.expr = target ∧ p.place = (x.atOperation line).place ∧ p.origin = x.address ∧
      ∀ s, Moves ((walkSingle walk line).run (x.moveTo line.pos)).2 s →
        ∃ g, s.segments[p.segment]? = some g ∧ p.offset + 2 ≤ g.bytes.size ∧
          ∀ v t s', s.evalAt p.place p.expr = (.ok (.ready v), s') → v.lowWord = .ok t →
            s'.applyPatch p v = ((branchByte t (g.wordAt p.offset)).map fun distance =>
              s'.patchBytes p.segment (p.offset + 1) [distance]) ∧
            (∀ l l' c, l.origin = p.origin → l.evalAt l.place p.expr = (.ok (.ready v), l') →
              (addBranch c opcode target).run.run l =
                ((branchByte t p.origin).map fun distance => c.add [opcode, distance], l')) ∧
            (branchByte t (g.wordAt p.offset) = branchByte t p.origin ↔
              (g.displacement.getD 0).toInt ≡ x.displacement.toInt [ZMOD 0x10000]) := by
  obtain ⟨hsegments, hsetup, horigin⟩ := x.atOperation_eq line
  have hstop : (x.atOperation line).stop = x.stop := by
    unfold stop
    rw [hsegments, hsetup]
  obtain ⟨b, hrun, hp, s₀, hs₀, hsize, hend⟩ := branch_queued hbranch hpending (by rw [hstop]; exact hfits)
  have hparams : target.params = [] := (evalAt_pending_iff.1 hpending).1.1
  have hwalk : ((walkSingle walk line).run (x.moveTo line.pos)).2 = b := by
    rw [walkSingle_operation hstmt (hbranch.hasParam hparams), run_reporting, hrun]
  rw [hwalk]
  refine ⟨_, hp, rfl, rfl, rfl, horigin, fun s hmoves => ?_⟩
  obtain ⟨g, hg, hgrown, hstart⟩ := hmoves.grows _ _ hend
  simp only [Array.size_append, size_toArray, length_cons, length_nil] at hgrown hstart
  have hlast : (x.atOperation line).lastSegment = x.lastSegment := by
    unfold lastSegment
    rw [hsegments]
  have hs₀' : x.openSegment.segments[x.lastSegment]? = some s₀ := by
    rw [← openSegment_segments_congr hsegments hsetup, ← hlast]
    exact hs₀
  obtain ⟨haddress, hdisplacement⟩ := address_eq hs₀'
  refine ⟨g, hg, ?_, fun v t s' hv ht => ⟨?_, fun l l' c hl he => ?_, ?_⟩⟩
  · show (x.atOperation line).segmentSize (x.atOperation line).lastSegment + 0 + 2 ≤ g.bytes.size
    omega
  · rw [← (Asked.ofEvalAt hv).segments] at hg
    dsimp only [applyPatch, patchFor]
    rw [ht]
    simp only [bind, Except.bind]
    rw [hg]
    dsimp only
    cases branchByte t _ <;> rfl
  · rw [addBranch_enters c opcode target l, show l.evalAt l.place target = _ from he]
    dsimp only
    rw [ht, hl]
    dsimp only [Except.bind]
    cases branchByte t _ <;> rfl
  · -- both addresses are measured in the segment of the branch, whose start has not changed
    rw [branchByte_inj]
    show g.wordAt ((x.atOperation line).segmentSize (x.atOperation line).lastSegment + 0) =
      (x.atOperation line).origin ↔ _
    rw [horigin, haddress, hdisplacement, ← hsize]
    exact wordAt_eq_iff (hstart (by omega)) s₀.bytes.size

/-- A branch over no bytes to a label that follows it, with a displacement set behind the label: it is patched
as a branch far backwards instead of one to the next byte. -/
theorem branch_forward_agrees_iff_displaced : ∃ (x b s s' : Assembly) (line : SourceLine) (p : Patch) (g : Segment),
      ((walkSingle none line).run (x.moveTo line.pos)).2 = b ∧ p ∈ b.pending ∧ Moves b s ∧
      s.evalAt p.place p.expr = (.ok (.ready (.int 0x8002)), s') ∧ s.segments[p.segment]? = some g ∧
      branchByte 0x8002 (g.wordAt p.offset) = .ok 0x9C ∧ branchByte 0x8002 p.origin = .ok 0 ∧
      ¬ (g.displacement.getD 0).toInt ≡ x.displacement.toInt [ZMOD 0x10000] := by
  let x : Assembly := .new {}
  let target : Expr := .symbol ⟨["LATER"], false⟩
  let line : SourceLine := ⟨⟨0, 0⟩, none, some (.op .jr [.expr target]), none⟩
  let patch : Patch := ⟨.branch, 0, 0, target, none, none, 0, 0x8000, ⟨0, 0⟩⟩
  have hpending : ((x.atOperation line).evalAt (x.atOperation line).place target).1 = .ok (.pending ["LATER"]) := rfl
  let b : Assembly := { x with
    segments := #[{ start := 0x8000, bytes := #[0x18, 0] }]
    symbols := { used := ["LATER"] }
    pending := #[patch]
    placed := #[(0x8000, ⟨0, 0⟩)] }
  let named : Assembly := { b with
    symbols := b.symbols.addSymbol (.module 0) ⟨"LATER", .label, some (.int 0x8002), ⟨0, 1⟩⟩ }
  let s : Assembly := { named with
    segments := named.segments.modify named.lastSegment fun s => { s with displacement := some 100 } }
  let s' : Assembly := (s.evalAt patch.place target).2
  have hb : ((walkSingle none line).run (x.moveTo line.pos)).2 = b := rfl
  have hnamed : Moves b named := .symbols (.add rfl)
  have hmoves : Moves b s := hnamed.tail (.displace named 100)
  obtain ⟨p, hp, -, -, -, -, hlater⟩ := branch_forward_agrees_iff rfl (.jr target) hpending (by decide) none
  rw [hb] at hp hlater
  obtain rfl : p = patch := by simpa [b] using hp
  have hready : s.evalAt patch.place target = (.ok (.ready (.int 0x8002)), s') := rfl
  obtain ⟨g, hg, -, hsettled⟩ := hlater s hmoves
  obtain ⟨-, -, hiff⟩ := hsettled _ 0x8002 _ hready rfl
  obtain rfl : g = { start := 0x8000, displacement := some 100, bytes := #[0x18, 0] } := by
    cases hg
    rfl
  refine ⟨x, b, s, s', line, patch, _, hb, hp, hmoves, hready, hg, by decide, by decide, ?_⟩
  rw [← hiff]
  decide

end SpectrumAsm
