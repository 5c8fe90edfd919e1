/-
From bytes back to operations.

An operation with all its expressions known appends the bytes of its cells (`emitOperation_filled`), and these
can be read back (`Instruction.encode_matches`).
-/
import Mathlib.Data.List.Forall2
import SpectrumAsm.Proofs.MachineCode

namespace SpectrumAsm

open SpectrumAsm.Cpu List Step Assembly

variable {α β : Type} {a b : Assembly} {e : Expr} {cells : List Cell}

/-! ## Code without holes -/

theorem Step.run_map (f : α → β) (x : Step α) (a : Assembly) :
    (f <$> x).run.run a = match x.run.run a with
      | (.ok v, b) => (.ok (f v), b)
      | (.error fault, b) => (.error fault, b) := by
  rw [map_eq_pure_bind, run_bind]
  rcases x.run.run a with ⟨fault | v, b⟩ <;> rfl

theorem Step.run_map_ok {f : α → β} {x : Step α} {y : β} (h : (f <$> x).run.run a = (.ok y, b)) :
    ∃ v, x.run.run a = (.ok v, b) ∧ f v = y := by
  rw [run_map] at h
  rcases hx : x.run.run a with ⟨fault | v, b'⟩ <;> rw [hx] at h <;> cases h
  exact ⟨v, rfl, rfl⟩

theorem run_readWord (e : Expr) (a : Assembly) :
    (readWord e).run.run a = match a.evalAt a.place e with
      | (.ok (.ready v), b) => (v.lowWord, b)
      | (.ok (.pending names), b) => (.error (.waiting names), b)
      | (.error fault, b) => (.error fault, b) := by
  have hrun : (evalExpr e).run.run a = a.evalAt a.place e := rfl
  unfold readWord evalNow
  rw [bind_assoc, run_bind, hrun]
  rcases a.evalAt a.place e with ⟨fault | v | names, b⟩
  · rfl
  · dsimp only
    rw [pure_bind, run_ofExcept]
  · rfl

def Cell.hole? : Cell → Option (PatchKind × Expr)
  | .byte _ => none
  | .byteOf e => some (.byte, e)
  | .wordOf e => some (.word, e)
  | .branch _ target => some (.branch, target)

/-- The bytes of a cell as long as its expression is not known. -/
def Cell.blank : Cell → List UInt8
  | .byte b => [b]
  | .byteOf _ => [0]
  | .wordOf _ => [0, 0]
  | .branch opcode _ => [opcode, 0]

section
variable {c d : Code}

theorem OperandSize.add_ok (size : OperandSize) (h : (size.add c e).run.run a = (.ok d, b)) :
    (a.Awaits e ∧ d = (c.addHole size.kind e).add size.blank) ∨
      ¬ a.Awaits e ∧ ∃ w, (readWord e).run.run a = (.ok w, b) ∧ d = c.add (size.bytes w) := by
  rcases (size.add_enters c e).ok h with hwaits | ⟨hknown, v, bs, he, hbs, rfl⟩
  · exact .inl hwaits
  · rw [run_readWord, he]
    cases hw : v.lowWord <;> rw [hw] at hbs <;> cases hbs
    exact .inr ⟨hknown, _, by dsimp only; rw [hw], rfl⟩

theorem addBranch_ok {opcode : UInt8} {target : Expr} (h : (addBranch c opcode target).run.run a = (.ok d, b)) :
    (a.Awaits target ∧ d = (c.addHole .branch target).add [opcode, 0]) ∨
      ¬ a.Awaits target ∧ ∃ distance, (readDistance target).run.run a = (.ok distance, b) ∧
        d = c.add [opcode, distance] := by
  rcases (addBranch_enters c opcode target).ok h with hwaits | ⟨hknown, v, bs, he, hbs, rfl⟩
  · exact .inl hwaits
  · unfold readDistance
    rw [run_bind, run_readWord, he]
    dsimp only
    cases hw : v.lowWord with
    | error _ => rw [hw] at hbs; cases hbs
    | ok w =>
      rw [hw] at hbs
      dsimp only [Except.bind] at hbs ⊢
      rw [run_bind, run_get]
      dsimp only
      rw [run_ofExcept, (Asked.ofEvalAt he).origin]
      cases hd : branchByte w a.origin <;> rw [hd] at hbs <;> cases hbs
      exact .inr ⟨hknown, _, rfl, rfl⟩

/-- A cell is added with its bytes, or with a hole for its expression that has to wait. -/
theorem addCell_ok {cell : Cell} (h : (addCell c cell).run.run a = (.ok d, b)) :
    (∃ kind e, cell.hole? = some (kind, e) ∧ a.Awaits e ∧ d = (c.addHole kind e).add cell.blank) ∨
      (∀ kind e, cell.hole? = some (kind, e) → ¬ a.Awaits e) ∧
        ∃ bytes, (fillCell cell).run.run a = (.ok bytes, b) ∧ d = c.add bytes := by
  cases cell with
  | byte n =>
    cases h
    exact .inr ⟨nofun, [n], rfl, rfl⟩
  | byteOf e =>
    rcases OperandSize.byte.add_ok h with hwaits | ⟨hknown, w, hread, rfl⟩
    · exact .inl ⟨_, _, rfl, hwaits⟩
    · exact .inr ⟨fun _ _ hcell => by cases hcell; exact hknown, _, run_bind_ok hread, rfl⟩
  | wordOf e =>
    rcases OperandSize.word.add_ok h with hwaits | ⟨hknown, w, hread, rfl⟩
    · exact .inl ⟨_, _, rfl, hwaits⟩
    · exact .inr ⟨fun _ _ hcell => by cases hcell; exact hknown, _, run_bind_ok hread, rfl⟩
  | branch opcode target =>
    rcases addBranch_ok h with hwaits | ⟨hknown, distance, hread, rfl⟩
    · exact .inl ⟨_, _, rfl, hwaits⟩
    · exact .inr ⟨fun _ _ hcell => by cases hcell; exact hknown, _, run_bind_ok hread, rfl⟩

theorem foldlM_addCell_known (hc : c.Built a) (h : (cells.foldlM addCell c).run.run a = (.ok d, b))
    (hholes : d.holes = c.holes) :
    ∃ bytes, (fillCells cells).run.run a = (.ok bytes, b) ∧ d.bytes = c.bytes ++ bytes.toArray := by
  induction cells generalizing c a with
  | nil =>
    cases h
    exact ⟨[], rfl, by simp⟩
  | cons cell cells ih =>
    obtain ⟨-, hbuilt⟩ := addCell_builds c cell a hc
    rw [foldlM_cons] at h
    obtain ⟨c', a', hx, h⟩ := run_bind_inv h
    rw [hx] at hbuilt
    obtain ⟨hc', -, more, hmore⟩ := hbuilt c' rfl
    obtain ⟨-, hrest⟩ := foldlM_builds addCell_builds cells c' a' hc'
    rw [h] at hrest
    obtain ⟨-, -, more', hmore'⟩ := hrest d rfl
    -- the holes of what comes between are among those of the end, which are those of the start
    have hempty : more = [] := by
      have hlength := congrArg length hholes
      rw [hmore', hmore] at hlength
      simp only [length_append] at hlength
      exact eq_nil_of_length_eq_zero (by omega)
    rw [hempty, append_nil] at hmore
    obtain ⟨kind, e, -, -, rfl⟩ | ⟨-, first, hfirst, rfl⟩ := addCell_ok hx
    · simp at hmore
    obtain ⟨rest, hfill, hbytes⟩ := ih hc' h (hholes.trans hmore.symm)
    refine ⟨first ++ rest, ?_, by rw [hbytes]; simp⟩
    unfold fillCells
    rw [run_bind_ok hfirst, run_bind_ok hfill]
    rfl

end

theorem emitCells_filled (h : (emitCells cells).run.run a = (.ok (), b)) (hqueue : b.pending = a.pending) :
    ∃ bytes a', (fillCells cells).run.run a = (.ok bytes, a') ∧ b.segments = a.extended bytes.toArray := by
  obtain ⟨hasked, hbuilt⟩ := foldlM_builds addCell_builds cells {} a .nil
  obtain ⟨code, a', hr, hemit⟩ := run_bind_inv h
  rw [hr] at hasked hbuilt
  have hemit : a'.emit code = (.ok (), b) := hemit
  obtain ⟨hcode, -⟩ := hbuilt code rfl
  have hholes : code.holes = [] := by
    by_cases hempty : code.bytes = #[]
    · exact hcode.holes_of_empty (by rw [hempty]; rfl)
    · have hpending := (emit_ok hemit hempty).1
      rw [hqueue, hasked.pending] at hpending
      have hsize := congrArg Array.size hpending
      simp only [Array.size_append, size_toArray, length_map] at hsize
      exact eq_nil_of_length_eq_zero (by omega)
  obtain ⟨bytes, hfill, hbytes⟩ := foldlM_addCell_known .nil hr hholes
  have hsegments := emit_segments hemit
  rw [hbytes, extended_congr hasked.segments (Noted.ofAsked hasked).setup] at hsegments
  exact ⟨bytes, a', hfill, by simpa using hsegments⟩

/-- An operation that is assembled with all expressions known appends the bytes of its cells. -/
theorem emitOperation_filled {m : Mnemonic} {ops : List Operand}
    (h : (emitOperation m ops).run.run a = (.ok (), b)) (hqueue : b.pending = a.pending) :
    ∃ args a' bytes, (readOperands m ops).run.run a = (.ok args, a') ∧ b.segments = a.extended bytes.toArray ∧
      ∀ rest, disassemble (bytes ++ rest) = some (normal (m, args), rest) := by
  cases emitOperation_inv h with
  | cells hi h =>
    obtain ⟨α, x, bytes, args, hfill, hread, hcode⟩ := Instruction.encode_matches hi
    obtain ⟨bs, a', hrun, hsegments⟩ := emitCells_filled h hqueue
    rw [hfill.fill] at hrun
    obtain ⟨v, hv, rfl⟩ := run_map_ok hrun
    exact ⟨args v, a', bytes v, by rw [hread, run_map, hv], hsegments, hcode v⟩
  | choose hi hn hasked hf h =>
    obtain ⟨α, x, args, hread, hcells⟩ := Instruction.encode_matches hi
    obtain ⟨bytes, hfill, hcode⟩ := hcells _ _ hf
    obtain ⟨bs, a', hrun, hsegments⟩ := emitCells_filled h (hqueue.trans hasked.pending.symm)
    rw [hfill.fill] at hrun
    obtain ⟨v, hv, rfl⟩ := run_map_ok hrun
    refine ⟨args _ v, a', bytes v, ?_, ?_, hcode v⟩
    · rw [hread, run_bind_ok hn, run_map, hv]
    · rw [hsegments, extended_congr hasked.segments (Noted.ofAsked hasked).setup]

/-! ## Operations and their code -/

theorem Assembly.getElem?_extended (a : Assembly) (bytes : Array UInt8) :
    ((a.extended bytes)[a.lastSegment]?.map (·.bytes)).getD #[] =
      (a.segments[a.lastSegment]?.map (·.bytes)).getD #[] ++ bytes := by
  unfold extended
  by_cases hempty : bytes = #[]
  · rw [if_pos hempty, hempty, Array.append_empty]
  · rw [if_neg hempty, Array.getElem?_modify, if_pos rfl]
    by_cases hnone : a.segments = #[]
    · have hlast : a.lastSegment = 0 := by simp [lastSegment, hnone]
      rw [openSegment_of_empty hnone, hlast, hnone]
      rfl
    · have hpos := Array.size_pos_iff.2 hnone
      have hlt : a.lastSegment < a.segments.size := by
        unfold lastSegment
        omega
      rw [openSegment_of_size_pos hpos, Array.getElem?_eq_getElem hlt]
      rfl

theorem Assembly.extended_inj {bytes bytes' : Array UInt8}
    (h : a.extended bytes = a.extended bytes') : bytes = bytes' := by
  have hbytes := a.getElem?_extended bytes
  rw [h, a.getElem?_extended bytes'] at hbytes
  exact (Array.append_right_inj _).1 hbytes.symm

/-- An operation that was assembled with all its expressions known: it was accepted, nothing waits
for it, and what it has appended are these bytes. -/
structure Emission where
  mnemonic : Mnemonic
  operands : List Operand
  before : Assembly
  after : Assembly
  bytes : List UInt8
  accepted : (emitOperation mnemonic operands).run.run before = (.ok (), after)
  evaluated : after.pending = before.pending
  appended : after.segments = before.extended bytes.toArray

namespace Emission

/-- The operation with the values its expressions had. -/
def ground? (e : Emission) : Option Ground :=
  match ((readOperands e.mnemonic e.operands).run.run e.before).1 with
  | .ok args => some (e.mnemonic, args)
  | .error _ => none

/-- Two operations are the same instruction, perhaps in different spellings. -/
def Same (e e' : Emission) : Prop :=
  ∃ i i' k, e.ground? = some i ∧ e'.ground? = some i' ∧ (k = i ∨ Alias i k) ∧ (k = i' ∨ Alias i' k)

theorem reads (e : Emission) : ∃ i, e.ground? = some i ∧
    ∀ rest, disassemble (e.bytes ++ rest) = some (normal i, rest) := by
  obtain ⟨args, a', bytes, hread, hsegments, hcode⟩ := emitOperation_filled e.accepted e.evaluated
  have hbytes : e.bytes = bytes := by
    have hextended := e.appended.symm.trans hsegments
    simpa using extended_inj hextended
  refine ⟨(e.mnemonic, args), ?_, ?_⟩
  · unfold ground?
    rw [hread]
  · rw [hbytes]
    exact hcode

theorem bytes_ne_nil (e : Emission) : e.bytes ≠ [] := by
  intro h
  obtain ⟨i, -, hcode⟩ := e.reads
  have hnil := hcode []
  rw [h] at hnil
  cases hnil

theorem same_of_append_eq {e e' : Emission} {rest rest' : List UInt8}
    (h : e.bytes ++ rest = e'.bytes ++ rest') : e.bytes = e'.bytes ∧ rest = rest' ∧ e.Same e' := by
  obtain ⟨i, hi, hcode⟩ := e.reads
  obtain ⟨i', hi', hcode'⟩ := e'.reads
  have hread := hcode rest
  rw [h, hcode' rest', Option.some.injEq, Prod.mk.injEq] at hread
  obtain ⟨hnormal, rfl⟩ := hread
  refine ⟨append_cancel_right h, rfl, i, i', normal i, hi, hi', normal_spelling i, ?_⟩
  rw [← hnormal]
  exact normal_spelling i'

end Emission

/-- Machine code is unambiguous. If the code of an operation is a beginning of the code of another, both are
the same code and the same instruction, spelled in one of the ways that `Alias` lists. So the bytes of a sequence
of operations can be cut into operations in only one way. -/
theorem machine_code_unambiguous : (∀ e e' : Emission, e.bytes <+: e'.bytes → e.bytes = e'.bytes ∧ e.Same e') ∧
      ∀ es es' : List Emission, es.flatMap (·.bytes) = es'.flatMap (·.bytes) →
        Forall₂ (fun e e' => e.bytes = e'.bytes ∧ e.Same e') es es' := by
  constructor
  · rintro e e' ⟨rest, hrest⟩
    have happend : e.bytes ++ rest = e'.bytes ++ [] := by rw [hrest, append_nil]
    obtain ⟨hbytes, -, hsame⟩ := Emission.same_of_append_eq happend
    exact ⟨hbytes, hsame⟩
  · intro es
    induction es with
    | nil =>
      intro es' h
      cases es' with
      | nil => exact .nil
      | cons e' es' =>
        rw [flatMap_nil, flatMap_cons, eq_comm, append_eq_nil_iff] at h
        exact absurd h.1 e'.bytes_ne_nil
    | cons e es ih =>
      intro es' h
      cases es' with
      | nil =>
        rw [flatMap_nil, flatMap_cons, append_eq_nil_iff] at h
        exact absurd h.1 e.bytes_ne_nil
      | cons e' es' =>
        rw [flatMap_cons, flatMap_cons] at h
        obtain ⟨hbytes, hrest, hsame⟩ := Emission.same_of_append_eq h
        exact .cons ⟨hbytes, hsame⟩ (ih es' hrest)

/-- An assembly for a Next with bytes in its first segment. -/
def nextWith (bytes : Array UInt8) : Assembly :=
  { new { options := { model := some .next } } with segments := #[{ start := 0x8000, bytes }] }

def loadIndexed : Emission where
  mnemonic := .ld
  operands := [.reg8 .a, .indexed .ix none]
  before := nextWith #[]
  after := nextWith #[0xDD, 0x7E, 0]
  bytes := [0xDD, 0x7E, 0]
  accepted := rfl
  evaluated := rfl
  appended := by decide

def loadIndexedBack : Emission where
  mnemonic := .ld
  operands := [.reg8 .a, .indexed .ix (some (.minus, .int 256))]
  before := nextWith #[]
  after := nextWith #[0xDD, 0x7E, 0]
  bytes := [0xDD, 0x7E, 0]
  accepted := rfl
  evaluated := rfl
  appended := by decide

def subtract : Emission where
  mnemonic := .sub
  operands := [.reg8 .b]
  before := nextWith #[]
  after := nextWith #[0x90]
  bytes := [0x90]
  accepted := rfl
  evaluated := rfl
  appended := by decide

def subtractFromA : Emission where
  mnemonic := .sub
  operands := [.reg8 .a, .reg8 .b]
  before := nextWith #[]
  after := nextWith #[0x90]
  bytes := [0x90]
  accepted := rfl
  evaluated := rfl
  appended := by decide

/-- The same two instructions, each in two spellings. -/
theorem machine_code_unambiguous_spellings :
    (loadIndexed.bytes <+: loadIndexedBack.bytes ∧ loadIndexed.Same loadIndexedBack) ∧
      [loadIndexed, subtract].flatMap (·.bytes) = [loadIndexedBack, subtractFromA].flatMap (·.bytes) ∧
      Forall₂ (fun e e' => e.bytes = e'.bytes ∧ e.Same e') [loadIndexed, subtract]
        [loadIndexedBack, subtractFromA] := by
  have hbegins : loadIndexed.bytes <+: loadIndexedBack.bytes := prefix_rfl
  have hbytes : [loadIndexed, subtract].flatMap (·.bytes) = [loadIndexedBack, subtractFromA].flatMap (·.bytes) := rfl
  exact ⟨⟨hbegins, (machine_code_unambiguous.1 _ _ hbegins).2⟩, hbytes, machine_code_unambiguous.2 _ _ hbytes⟩

end SpectrumAsm
