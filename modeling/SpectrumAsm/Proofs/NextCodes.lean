/-
Code that only a Next understands.

Whatever the expressions of an operation are worth, and also as long as they are not known, its code is read back
as the operation (`emitOperation_read`). So code of the Next comes from its own mnemonics and from the few forms
of others that take one.
-/
import Mathlib.Tactic.FinCases
import SpectrumAsm.Proofs.Unambiguous

namespace SpectrumAsm

open SpectrumAsm.Cpu Instruction Assembly

/-- What follows `ED` in code that only a Next understands. -/
def nextCodes : List UInt8 :=
  [0x23, 0x24, 0x26, 0x27, 0x30, 0x31, 0x32, 0x33, 0x34, 0x35, 0x36, 0x8A, 0x90, 0x91, 0x92, 0x93, 0x94, 0x95, 0x98,
    0xA4, 0xAC, 0xB4, 0xB6, 0xB7, 0xBC]

def IsNextCode (bytes : List UInt8) : Prop := ∃ code ∈ nextCodes, ∃ rest, bytes = 0xED :: code :: rest

variable {a b : Assembly} {m : Mnemonic} {ops : List Operand} {next : Bool} {cs : List Cell} {bs : List UInt8}

/-! ## Code that is read back -/

theorem addCell_fills {c d : Code} {cell : Cell} (h : (addCell c cell).run.run a = (.ok d, b)) :
    ∃ bs : List UInt8, d.bytes = c.bytes ++ bs.toArray ∧
      ∀ {cs more}, Realizes cs more → Realizes (cell :: cs) (bs ++ more) := by
  rcases addCell_ok h with ⟨kind, e, hcell, -, rfl⟩ | ⟨-, bs, hfill, rfl⟩
  · refine ⟨cell.blank, by simp, ?_⟩
    cases cell with
    | byte _ => cases hcell
    | byteOf e => exact .byteOf e 0
    | wordOf e => exact .wordOf e 0
    | branch opcode e => exact .branch opcode e 0
  · refine ⟨bs, by simp, ?_⟩
    cases cell with
    | byte n =>
      cases hfill
      exact .byte n
    | byteOf e =>
      obtain ⟨w, _, -, ⟨⟩⟩ := Step.run_bind_inv hfill
      exact .byteOf e _
    | wordOf e =>
      obtain ⟨w, _, -, ⟨⟩⟩ := Step.run_bind_inv hfill
      exact .wordOf e w
    | branch opcode e =>
      obtain ⟨distance, _, -, ⟨⟩⟩ := Step.run_bind_inv hfill
      exact .branch opcode e distance

theorem foldlM_fills {c d : Code} (h : (cs.foldlM addCell c).run.run a = (.ok d, b)) :
    ∃ bs : List UInt8, d.bytes = c.bytes ++ bs.toArray ∧ Realizes cs bs := by
  induction cs generalizing c a with
  | nil =>
    cases h
    exact ⟨[], by simp, .nil⟩
  | cons cell cs ih =>
    rw [List.foldlM_cons] at h
    obtain ⟨c', a', hcell, h⟩ := Step.run_bind_inv h
    obtain ⟨bs, hc, hfills⟩ := addCell_fills hcell
    obtain ⟨more, hd, hmore⟩ := ih h
    exact ⟨bs ++ more, by rw [hd, hc]; simp, hfills hmore⟩

/-- The code of an operation is read back, with zeros in the place of expressions that are not known. -/
theorem emitOperation_read (h : (emitOperation m ops).run.run a = (.ok (), b)) :
    ∃ i cs bs args, encode a.effectiveModel.hasNextOps m ops = .ok i ∧ i.Yields cs ∧ Realizes cs bs ∧
      b.segments = a.extended bs.toArray ∧ disassemble bs = some (normal (m, args), []) := by
  have hcells {cs : List Cell} {c : Assembly} (hc : Asked a c) (h : (emitCells cs).run.run c = (.ok (), b)) :
      ∃ bs, Realizes cs bs ∧ b.segments = a.extended bs.toArray := by
    have hasked := (foldlM_builds addCell_builds cs {} c .nil).1
    obtain ⟨d, c', hd, hemit⟩ := Step.run_bind_inv h
    rw [hd] at hasked
    obtain ⟨bs, hbytes, hbs⟩ := foldlM_fills hd
    have hall := hc.trans hasked
    refine ⟨bs, hbs, (emit_segments hemit).trans ?_⟩
    rw [hbytes, extended_congr hall.segments (Noted.ofAsked hall).setup]
    simp
  cases emitOperation_inv h with
  | cells hi h =>
    obtain ⟨bs, hbs, hsegments⟩ := hcells (.refl a) h
    obtain ⟨α, x, bytes, args, hfill, -, hread⟩ := encode_matches hi
    obtain ⟨v, rfl⟩ := hfill.all hbs
    exact ⟨_, _, _, args v, hi, .cells _, hbs, hsegments, by simpa using hread v []⟩
  | choose hi hn hasked hf h =>
    obtain ⟨bs, hbs, hsegments⟩ := hcells hasked h
    obtain ⟨α, x, args, -, hread⟩ := encode_matches hi
    obtain ⟨bytes, hfill, hread⟩ := hread _ _ hf
    obtain ⟨v, rfl⟩ := hfill.all hbs
    exact ⟨_, _, _, args _ v, hi, .choose hf, hbs, hsegments, by simpa using hread v []⟩

/-! ## Code of the Next -/

theorem next_code_read {g : Ground} {more : List UInt8} (hbs : IsNextCode bs)
    (h : disassemble bs = some (g, more)) : g.1.isNextOnly = true ∨ g.1 = .add ∨ g.1 = .jp ∨ g.1 = .push := by
  obtain ⟨code, hcode, rest, rfl⟩ := hbs
  -- No code of the list has more than two bytes of operands.
  rcases rest with _ | ⟨x, _ | ⟨y, rest⟩⟩ <;> fin_cases hcode <;> cases h <;> simp [Mnemonic.isNextOnly]

theorem normal_mnemonic (g : Ground) : (normal g).1 = g.1 := by
  unfold normal
  split <;> rfl

/-- Cells that do not begin with code of the Next, whatever their expressions are worth. -/
def isCommon : Cells → Bool
  | .ok (.byte lead :: .byte code :: _) => lead != 0xED || !nextCodes.contains code
  | .ok (.byte lead :: _) => lead != 0xED
  | .ok _ => false
  | .error _ => true

theorem Instruction.Realizes.common (h : Realizes cs bs) (hcs : isCommon (.ok cs) = true) : ¬ IsNextCode bs := by
  rintro ⟨code, hcode, rest, rfl⟩
  generalize hbytes : (0xED :: code :: rest) = bs at h
  cases h with
  | byte n h =>
    obtain ⟨rfl, rfl⟩ := List.cons.inj hbytes
    generalize hbytes : (code :: rest) = bs at h
    cases h with
    | byte n h =>
      obtain ⟨rfl, rfl⟩ := List.cons.inj hbytes
      simp [isCommon, hcode] at hcs
    | _ => cases hcs
  | _ => cases hcs

theorem jump_common (ops : List Operand) : isCommon (jump next ops) = true ∨ jump false ops = .error .nextOnly := by
  unfold jump
  split <;> (try split) <;> (try cases ‹Index›) <;> (try cases ‹Condition›) <;> first | exact .inl rfl | exact .inr rfl

theorem push_common (ops : List Operand) :
    isCommon (stack next .push ops) = true ∨ stack false .push ops = .error .nextOnly := by
  unfold stack
  split <;> (try cases ‹Pair›) <;> (try cases ‹Index›) <;> first | exact .inl rfl | exact .inr rfl

theorem accumulator_common (src : Operand) : isCommon (accumulator .add .add src) = true := by
  unfold accumulator
  split <;> (try cases ‹Reg8›) <;> (try cases ‹Index›) <;> (try cases ‹HalfIndex›) <;> rfl

theorem add_common (ops : List Operand) :
    isCommon (arithmetic next .add .add ops) = true ∨ arithmetic false .add .add ops = .error .nextOnly := by
  unfold arithmetic
  split
  · exact .inl (accumulator_common _)
  · split <;> try exact .inl rfl
    split <;> try exact .inl rfl
    · unfold addPair
      dsimp only
      split <;> (try split) <;> (try split) <;> (try cases ‹Pair›) <;> first | exact .inl rfl | exact .inr rfl
    · left
      unfold addIndex
      split <;> (try split) <;> (try split) <;> (try cases ‹Index›) <;> (try cases ‹Index›) <;> rfl
  · exact .inl rfl
  · exact .inl rfl

theorem common_or_refused (hm : m = .add ∨ m = .jp ∨ m = .push) (h : encode next m ops = .ok i) (hcs : i.Yields cs) :
    isCommon (.ok cs) = true ∨ encode false m ops = .error .nextOnly := by
  have hcells {x y : Cells} (hx : isCommon x = true ∨ y = .error .nextOnly) (h : .cells <$> x = .ok i) :
      isCommon (.ok cs) = true ∨ cells <$> y = .error .nextOnly := by
    cases x <;> cases h
    cases hcs
    exact hx.imp_right (by rintro rfl; rfl)
  rcases hm with rfl | rfl | rfl
  · exact hcells (add_common ops) h
  · exact hcells (jump_common ops) h
  · exact hcells (push_common ops) h

theorem next_code_refused (h : (emitOperation m ops).run.run a = (.ok (), b)) {bytes : Array UInt8}
    (hbytes : b.segments = a.extended bytes) (hnext : IsNextCode bytes.toList) :
    encode false m ops = .error .nextOnly := by
  obtain ⟨i, cs, bs, args, hi, hcs, hbs, hsegments, hread⟩ := emitOperation_read h
  obtain rfl := extended_inj (hbytes.symm.trans hsegments)
  have hm := next_code_read hnext hread
  rw [normal_mnemonic] at hm
  rcases hm with hm | hm
  · simp [encode, show m.isNextOnly = true from hm]
  · exact (common_or_refused hm hi hcs).resolve_left fun hcommon => hbs.common hcommon hnext

/-- Without a Next no code is made that only a Next understands, and an operation that has such code on a Next
is refused on all other models. -/
theorem no_next_code_without_next (hm : a.effectiveModel ≠ .next) :
    (∀ b bytes, (emitOperation m ops).run.run a = (.ok (), b) → b.segments = a.extended bytes →
      ¬ IsNextCode bytes.toList) ∧
    ∀ c d bytes, (emitOperation m ops).run.run c = (.ok (), d) → d.segments = c.extended bytes →
      IsNextCode bytes.toList →
      (emitOperation m ops).run.run a = (.error .nextOnly, a) ∧ Fault.nextOnly.code = "Z0102" := by
  have hrefused (h : encode false m ops = .error .nextOnly) :
      (emitOperation m ops).run.run a = (.error .nextOnly, a) := by
    unfold emitOperation
    rw [Step.run_bind, Step.run_get]
    dsimp only
    rw [Step.run_ofExcept_bind, show a.effectiveModel.hasNextOps = false by simpa [Model.hasNextOps] using hm, h]
  refine ⟨fun b bytes h hbytes hnext => ?_, fun c d bytes h hbytes hnext => ?_⟩
  · cases h.symm.trans (hrefused (next_code_refused h hbytes hnext))
  · exact ⟨hrefused (next_code_refused h hbytes hnext), rfl⟩

/-- A word that is not known yet is pushed on a Next only. -/
theorem no_next_code_without_next_push :
    let push := emitOperation .push [.expr (.symbol ⟨["LATER"], false⟩)]
    (∃ d, push.run.run (nextWith #[]) = (.ok (), d) ∧ d.segments = (nextWith #[]).extended #[0xED, 0x8A, 0, 0]) ∧
      (new {}).effectiveModel ≠ .next ∧
      push.run.run (.new {}) = (.error .nextOnly, .new {}) ∧ Fault.nextOnly.code = "Z0102" := by
  intro push
  have hm : (new {}).effectiveModel ≠ .next := by decide
  have hsegments : (push.run.run (nextWith #[])).2.segments = (nextWith #[]).extended #[0xED, 0x8A, 0, 0] := by
    decide +kernel
  exact ⟨⟨_, rfl, hsegments⟩, hm, (no_next_code_without_next hm).2 _ _ _ rfl hsegments ⟨0x8A, by decide, [0, 0], rfl⟩⟩

end SpectrumAsm
