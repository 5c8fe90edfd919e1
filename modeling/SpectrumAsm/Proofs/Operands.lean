/-
The operands of lines, from the cell they come from to the place their bytes have.

Code is a row of cells, put at the end of a segment or into a field (`Assembly.Lays`). A cell whose expression
has a value on its line is there with its bytes; one that has to wait is there as a patch.
-/
import SpectrumAsm.Proofs.Layout
import SpectrumAsm.Proofs.PatchFates
import SpectrumAsm.Proofs.Unambiguous

namespace SpectrumAsm

open List Assembly

variable {after before : List Cell} {s : Stmt} {x : Step Unit}

/-! ## Cells with expressions -/

section
variable {a b : Assembly} {c d : Code}

theorem foldlM_addCell_holes {cells : List Cell} (hc : c.Built a)
    (h : (cells.foldlM addCell c).run.run a = (.ok d, b)) :
    ∀ hole ∈ d.holes, hole ∈ c.holes ∨ c.bytes.size ≤ hole.2.1 := by
  induction cells generalizing c a with
  | nil =>
    cases h
    exact fun hole hm => .inl hm
  | cons cell cells ih =>
    obtain ⟨-, hbuilt⟩ := addCell_builds c cell a hc
    rw [foldlM_cons] at h
    obtain ⟨c', a', hx, h⟩ := Step.run_bind_inv h
    rw [hx] at hbuilt
    obtain ⟨hc', ⟨more, hmore⟩, -⟩ := hbuilt c' rfl
    have hsize : c.bytes.size ≤ c'.bytes.size := by
      rw [hmore, Array.size_append]
      omega
    intro hole hm
    rcases ih hc' h hole hm with hm | hle
    · rcases addCell_ok hx with ⟨kind, e, -, -, rfl⟩ | ⟨-, bytes, -, rfl⟩
      · rw [Code.holes_add, Code.holes_addHole, mem_append, mem_singleton] at hm
        rcases hm with hm | rfl
        · exact .inl hm
        · exact .inr (Nat.le_refl _)
      · exact .inl hm
    · exact .inr (Nat.le_trans hsize hle)

end

/-! ## Code in its place -/

/-- Code is put into segment `k` from offset `base` on: at the end of the last segment, or into a field of
the instance that is open. -/
inductive Assembly.Puts (a : Assembly) (code : Code) : (k base : Nat) → Assembly → Prop where
  | emit {b : Assembly} (hd : a.opened = none ∨ code.IsData) (he : a.emit code = (.ok (), b)) :
    Puts a code a.lastSegment (a.segmentSize a.lastSegment) b
  | override {b c : Assembly} {i : StructInstance} (hi : a.opened = some i) (hd : code.IsData)
    (he : a.emit code = (.ok (), b))
    (hm : b.moveOverride i (a.segmentSize i.segment) a.pending.size = (.ok (), c)) :
    Puts a code i.segment (i.start + i.cursor) c

namespace Assembly.Puts

variable {a b : Assembly} {code : Code} {k base : Nat}

theorem turn (h : a.Puts code k base b) (hc : code.Built a) (ha : Arises a) : ∃ xs, Turn a xs b := by
  cases h with
  | emit hd he =>
    have hturn := Turn.emit hc hd
    rw [he] at hturn
    exact ⟨_, hturn⟩
  | override hi hd he hm => exact ⟨_, .override hi (ha.reachable.instanceInPlace _ hi) hc hd he hm⟩

/-- The bytes of the code are there, and for each hole a patch waits at the place of the line. -/
theorem there (h : a.Puts code k base b) (hc : code.Built a) (ha : Arises a) (ho : b.overrun = false) :
    (∀ j < code.bytes.size, base + j < b.segmentSize k ∧ b.byteAt k (base + j) = code.bytes[j]?) ∧
      (∀ hole ∈ code.holes, ∃ p ∈ b.pending, p.expr = hole.2.2 ∧ p.place = a.place ∧ p.kind.span = hole.1.span ∧
        p.extent = ⟨k, base + hole.2.1 + hole.1.lead, base + hole.2.1 + hole.1.lead + hole.1.span⟩) ∧
      ∀ p ∈ b.pending, ∀ j < code.bytes.size, p.extent.Covers k (base + j) → ∃ hole ∈ code.holes,
        hole.2.1 ≤ j ∧ j < hole.2.1 + hole.1.lead + hole.1.span := by
  have hextent (hole : PatchKind × Nat × Expr) : (a.patchFor base hole).extent = ⟨a.lastSegment,
      base + hole.2.1 + hole.1.lead, base + hole.2.1 + hole.1.lead + hole.1.span⟩ := rfl
  obtain ⟨xs, hturn⟩ := h.turn hc ha
  have hplace := ha.inPlace (hturn.action.move.overrun ho)
  cases h with
  | emit hd he =>
    have hemitted := hc.emitted he
    refine ⟨fun j hj => ⟨?_, ?_⟩, fun hole hm => ?_, fun p hp j hj hcov => ?_⟩
    · rw [hemitted.size, if_pos rfl]
      omega
    · rw [hemitted.bytes, if_pos ⟨rfl, Nat.le_add_right _ _⟩, Nat.add_sub_cancel_left]
    · refine ⟨a.patchFor _ hole, ?_, rfl, rfl, rfl, hextent hole⟩
      rw [hemitted.pending]
      exact Array.mem_append_right _ (mem_toArray.2 (mem_map_of_mem hm))
    · rw [hemitted.pending, Array.mem_append] at hp
      rcases hp with hp | hp
      · have := hplace.lt_segmentSize hp hcov
        omega
      · obtain ⟨hole, hm, rfl⟩ := mem_map.1 (mem_toArray.1 hp)
        obtain ⟨-, hstart, hstop⟩ := hcov
        simp only [hextent] at hstart hstop
        exact ⟨hole, hm, by omega, by omega⟩
  | @override b' c i hi hd he hm =>
    have hin := ha.reachable.instanceInPlace _ hi
    have hover := (hc.emitted he).overridden hin hm ho
    have hfits := hover.fits
    refine ⟨fun j hj => ⟨?_, ?_⟩, fun hole hm => ?_, fun p hp j hj hcov => ?_⟩
    · rw [hover.size]
      omega
    · rw [hover.bytes, if_pos ⟨rfl, by omega, by omega⟩, Nat.add_sub_cancel_left]
    · refine ⟨a.patchFor (i.start + i.cursor) (hole.1.inField, hole.2), ?_, rfl, rfl, hole.1.span_inField, ?_⟩
      · rw [hover.pending]
        exact Array.mem_append_right _ (mem_toArray.2 (mem_map.2 ⟨hole, hm, rfl⟩))
      · rw [a.extent_patchFor_inField, hextent, hin]
    · rw [hover.pending, Array.mem_append, Array.mem_filter] at hp
      rcases hp with ⟨hp, htouch⟩ | hp
      · have happart := hplace.untouched hi hp (Nat.le_add_right _ _) (by simpa using htouch) hcov.1.symm
        obtain ⟨-, hstart, hstop⟩ := hcov
        omega
      · obtain ⟨hole, hm, rfl⟩ := mem_map.1 (mem_toArray.1 hp)
        rw [a.extent_patchFor_inField] at hcov
        obtain ⟨-, hstart, hstop⟩ := hcov
        simp only [hextent] at hstart hstop
        exact ⟨hole, hm, by omega, by omega⟩

end Assembly.Puts

/-! ## Operands of a line -/

/-- A line that is met in `a` puts a cell at offset `i` of segment `k`, among others. -/
def Assembly.Lays (a : Assembly) (cell : Cell) (k i : Nat) (b : Assembly) : Prop :=
  ∃ (before after : List Cell) (c code : Code) (a₁ a₂ : Assembly) (base : Nat),
    (before.foldlM addCell {}).run.run a = (.ok c, a₁) ∧
      ((cell :: after).foldlM addCell c).run.run a₁ = (.ok code, a₂) ∧
      a₂.Puts code k base b ∧ i = base + c.bytes.size

namespace Assembly.Lays

variable {a b : Assembly} {cell : Cell} {k i : Nat} {kind : PatchKind} {e : Expr}

theorem ofEmitCells (hopened : a.opened = none) (h : (emitCells (before ++ cell :: after)).run.run a = (.ok (), b)) :
    a.Lays cell a.lastSegment (a.segmentSize a.lastSegment + cellsSize before) b := by
  obtain ⟨hasked, hbuilt⟩ := foldlM_builds addCell_builds before {} a .nil
  have hsize := foldlM_adds addCell_adds before {} a
  unfold emitCells at h
  rw [foldlM_append, bind_assoc, Step.run_bind] at h
  rcases hbefore : (before.foldlM addCell {}).run.run a with ⟨fault | c, a₁⟩ <;>
    rw [hbefore] at h hasked hbuilt hsize
  · cases h
  obtain ⟨hc, -⟩ := hbuilt c rfl
  obtain ⟨hasked', -⟩ := foldlM_builds addCell_builds (cell :: after) c a₁ hc
  dsimp only at h
  rw [Step.run_bind] at h
  rcases hafter : ((cell :: after).foldlM addCell c).run.run a₁ with ⟨fault | code, a₂⟩ <;>
    rw [hafter] at h hasked'
  · cases h
  have hline := hasked.trans hasked'
  have hlast := (Noted.ofAsked hline).lastSegment
  have hopened' : a₂.opened = none := by
    obtain ⟨_, _, rfl⟩ := hline
    exact hopened
  have hbase : a₂.segmentSize a₂.lastSegment = a.segmentSize a.lastSegment := by
    unfold segmentSize
    rw [hlast, hline.segments]
  have hputs : a₂.Puts code a.lastSegment (a.segmentSize a.lastSegment) b := by
    rw [← hbase, ← hlast]
    exact .emit (.inl hopened') h
  refine ⟨before, after, c, code, a₁, a₂, _, hbefore, hafter, hputs, ?_⟩
  rw [hsize c a₁ rfl]
  simp [cellsSize]

/-- An operand that is known on its line is encoded there, and its bytes are done with. One that has to
wait is a patch with the place of the line. -/
theorem cases (h : a.Lays cell k i b) (hcell : cell.hole? = some (kind, e)) (ha : Arises a) (ho : b.overrun = false) :
    (∃ es, History a es b) ∧ ((¬ e.Waits (a.symbols.env a.place) ∧ ∃ l l' bytes, Asked a l ∧
          (fillCell cell).run.run l = (.ok bytes, l') ∧
          ∀ j < bytes.length, b.Done k (i + j) ∧ b.byteAt k (i + j) = bytes[j]?) ∨
        e.Waits (a.symbols.env a.place) ∧ ∃ p ∈ b.pending, p.expr = e ∧ p.place = a.place ∧
          p.kind.span = kind.span ∧ p.extent = ⟨k, i + kind.lead, i + kind.lead + kind.span⟩) := by
  obtain ⟨before, after, c, code, a₁, a₂, base, hbefore, hafter, hputs, rfl⟩ := h
  obtain ⟨hasked, hbuilt⟩ := foldlM_builds addCell_builds before {} a .nil
  rw [hbefore] at hasked hbuilt
  obtain ⟨hc, -⟩ := hbuilt c rfl
  obtain ⟨hasked', hbuilt'⟩ := foldlM_builds addCell_builds (cell :: after) c a₁ hc
  rw [hafter] at hasked' hbuilt'
  obtain ⟨hcode, -⟩ := hbuilt' code rfl
  have hline := hasked.trans hasked'
  have hcalm := (Calm.ofAsked hline).history
  have ha₂ := hcalm.arises ha
  obtain ⟨xs, hturn⟩ := hputs.turn hcode ha₂
  refine ⟨⟨_, hcalm.trans (.turn hturn)⟩, ?_⟩
  obtain ⟨hbytes, hholes, hcovered⟩ := hputs.there hcode ha₂ ho
  rw [foldlM_cons] at hafter
  obtain ⟨hone, hbuilt₁⟩ := addCell_builds c cell a₁ hc
  obtain ⟨d, l', hx, hafter⟩ := Step.run_bind_inv hafter
  rw [hx] at hone hbuilt₁
  obtain ⟨hd, -⟩ := hbuilt₁ d rfl
  obtain ⟨-, hrest⟩ := foldlM_builds addCell_builds after d l' hd
  rw [hafter] at hrest
  obtain ⟨-, ⟨moreBytes, hmoreBytes⟩, moreHoles, hmoreHoles⟩ := hrest code rfl
  rcases addCell_ok hx with ⟨kind', e', hcell', hwaits, rfl⟩ | ⟨hknown, bytes, hfill, rfl⟩
  · cases hcell.symm.trans hcell'
    refine .inr ⟨hasked.awaits.1 hwaits, ?_⟩
    have hm : (kind, c.bytes.size, e) ∈ code.holes := by simp [hmoreHoles]
    obtain ⟨p, hp, hexpr, hplace, hspan, hextent⟩ := hholes _ hm
    exact ⟨p, hp, hexpr, hplace.trans hline.place, hspan, hextent⟩
  · refine .inl ⟨fun hwaits => hknown _ _ hcell (hasked.awaits.2 hwaits), a₁, l', bytes, hasked, hfill, fun j hj => ?_⟩
    have hinside : c.bytes.size + j < code.bytes.size := by
      rw [hmoreBytes, Code.bytes_add]
      simp only [Array.size_append, size_toArray]
      omega
    have hat : code.bytes[c.bytes.size + j]? = bytes[j]? := by
      rw [hmoreBytes, Code.bytes_add, Array.append_assoc, Array.getElem?_append_right (by omega),
        Array.getElem?_append_left (by simp; omega)]
      simp
    obtain ⟨hlt, hbyte⟩ := hbytes _ hinside
    rw [← Nat.add_assoc] at hlt hbyte
    refine ⟨⟨hlt, fun p hp hcov => ?_⟩, hbyte.trans hat⟩
    rw [Nat.add_assoc] at hcov
    obtain ⟨hole, hm, hfirst, hlast⟩ := hcovered p hp _ hinside hcov
    -- A hole is before the cell or behind it.
    rcases foldlM_addCell_holes hd hafter hole hm with hm | hle
    · have := (hc.hole hm).inside
      omega
    · simp only [Code.bytes_add, Array.size_append, size_toArray] at hle
      omega

end Assembly.Lays

/-! ## Lines of code -/

/-- The cells a statement is written as in a state. -/
inductive Stmt.Cells (a : Assembly) : Stmt → List Cell → Prop where
  | operation {m : Cpu.Mnemonic} {operands : List Operand} {cells : List Cell}
    (h : Instruction.encode a.effectiveModel.hasNextOps m operands = .ok (.cells cells)) :
    Cells a (.op m operands) cells
  /-- one operand is a number that decides about the operation -/
  | chosen {m : Cpu.Mnemonic} {operands : List Operand} {cells : List Cell} {number : Expr} {n : Int64}
    {choice : Int64 → Except Fault (List Cell)} {b : Assembly}
    (h : Instruction.encode a.effectiveModel.hasNextOps m operands = .ok (.choose number choice))
    (hn : (evalInt number).run.run b = (.ok n, a)) (hb : Asked b a) (hc : choice n = .ok cells) :
    Cells a (.op m operands) cells
  | bytes (es : List Expr) : Cells a (.pragma (.defb es)) (es.map .byteOf)
  | words (es : List Expr) : Cells a (.pragma (.defw es)) (es.map .wordOf)

/-- The cells of a statement are laid one behind the other by the time `b`. -/
def Stmt.AllLaid (s : Stmt) (a b : Assembly) : Prop :=
  ∃ cells, s.Cells a cells ∧ ∀ before cell after, cells = before ++ cell :: after →
    a.Lays cell a.lastSegment (a.segmentSize a.lastSegment + cellsSize before) b

theorem Stmt.code?_laid (h : s.code? = some x) {a b : Assembly} (hopened : a.opened = none)
    (hr : x.run.run a = (.ok (), b)) : ∃ c, Asked a c ∧ s.AllLaid c b := by
  have hvalues {cells : List Cell} (hcells : s.Cells a cells)
      (hr : (emitCells cells).run.run a = (.ok (), b)) : s.AllLaid a b :=
    ⟨cells, hcells, fun _ _ _ hc => .ofEmitCells hopened (hc ▸ hr)⟩
  unfold code? at h
  split at h <;> cases h
  · next m operands =>
    cases emitOperation_inv hr with
    | cells hi h => exact ⟨a, .refl a, hvalues (.operation hi) h⟩
    | @choose _ _ _ c cs hi hn hasked hf h =>
      -- the number is evaluated first, so the cells are laid from the state after that
      have hsame : c.opened = a.opened ∧ c.effectiveModel = a.effectiveModel := by
        obtain ⟨_, _, rfl⟩ := hasked
        exact ⟨rfl, rfl⟩
      rw [← hsame.2] at hi
      exact ⟨c, hasked, cs, .chosen hi hn hasked hf, fun _ _ _ hc => .ofEmitCells (hsame.1.trans hopened) (hc ▸ h)⟩
  · next es =>
    refine ⟨a, .refl a, hvalues (.bytes es) ?_⟩
    unfold emitCells
    rw [foldlM_map]
    exact hr
  · next es =>
    refine ⟨a, .refl a, hvalues (.words es) ?_⟩
    unfold emitCells
    rw [foldlM_map]
    exact hr

/-- A line with an operation or data is reported, or its operands are laid. -/
theorem walkSingle_laid {line : SourceLine} (hs : line.stmt = some s) (hx : s.code? = some x)
    (walk : Option LineWalker) (a : Assembly) :
    ∃ c, History a [] c ∧ ((∃ fault, ((walkSingle walk line).run a).2 = c.report fault) ∨
      s.AllLaid c ((walkSingle walk line).run a).2) := by
  have hclosed : History a [] { a with opened := none } := .idle (.closeInstance a) (.refl _) rfl
  rcases Stmt.code?_walk hx hs walk a with ⟨fault, hrun⟩ | ⟨placed, hrun⟩
  · exact ⟨_, hclosed, .inl ⟨fault, congrArg Prod.snd hrun⟩⟩
  generalize hb : { ({ a with opened := none } : Assembly).bindLineLabel line with placed } = b at hrun
  have hopened : b.opened = none := by
    obtain ⟨_, _, _, hlabel⟩ := bindLineLabel_eq { a with opened := none } line
    rw [← hb, hlabel]
  have hbefore : History a [] b := by
    have hnoted : Noted (bindLineLabel { a with opened := none } line) b := by
      rw [← hb]
      apply Noted.ofSame <;> rfl
    have hplaced : Calm (bindLineLabel { a with opened := none } line) b := .note hnoted (hb ▸ rfl)
    exact hclosed.trans ((bindLineLabel_calm _ line).trans hplaced).history
  rw [hrun, run_reporting]
  rcases hr : x.run.run b with ⟨fault | _, d⟩
  · obtain ⟨c, hasked, hemits⟩ := Stmt.code?_emits hx b
    have hread := hbefore.trans (Calm.ofAsked hasked).history
    refine ⟨d, ?_, .inl ⟨fault, rfl⟩⟩
    rcases hemits with ⟨_, he⟩ | ⟨code, -, -, he⟩ <;> rw [hr] at he
    · cases he
      exact hread
    · rw [emit_error he.symm]
      exact hread.trans (openSegment_calm c).history
  · obtain ⟨c, hasked, hlaid⟩ := Stmt.code?_laid hx hopened hr
    exact ⟨c, hbefore.trans (Calm.ofAsked hasked).history, .inr hlaid⟩

end SpectrumAsm
