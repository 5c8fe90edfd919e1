/-
Operands that are known only later.

An operand whose expression has to wait leaves blank bytes and a patch. Whatever happens until the patch is
settled, the outcome is that of the same operand with the same value known on the line. So it is for overridden
fields.
-/
import SpectrumAsm.Proofs.PatchRanges

namespace SpectrumAsm

open Assembly OperandSize

variable {a : Assembly} {size : OperandSize}

/-! ## Bytes that are overwritten -/

/-- `b` is `a` with bytes of a segment overwritten that were there before; all other bytes of all
segments are the same. -/
def Assembly.Overwritten (a b : Assembly) (segment offset : Nat) (bytes : List UInt8) : Prop :=
  offset + bytes.length ≤ a.segmentSize segment ∧ ∀ k i, b.byteAt k i =
    if k = segment ∧ offset ≤ i ∧ i < offset + bytes.length then bytes[i - offset]? else a.byteAt k i

theorem Assembly.overwritten_patchBytes {segment offset : Nat} {bytes : List UInt8}
    (h : offset + bytes.length ≤ a.segmentSize segment) :
    a.Overwritten (a.patchBytes segment offset bytes) segment offset bytes :=
  ⟨h, a.byteAt_patchBytes h⟩

theorem applyPatch_operand {p : Patch} (hk : p.kind = size.kind ∨ p.kind = size.fieldKind) (a : Assembly) (v : Value) :
    a.applyPatch p v = v.lowWord.map fun w => a.patchBytes p.segment p.offset (size.bytes w) := by
  unfold applyPatch
  rcases hk with hk | hk <;> rw [hk] <;> cases size <;> rfl

/-- Settling the patch of an operand in a state does what adding the operand does on any line where its
expression has the same value: both give the bytes of the value, or both refuse a text. -/
def Patch.Agrees (p : Patch) (size : OperandSize) (s : Assembly) : Prop :=
  ∀ v s', s.evalAt p.place p.expr = (.ok (.ready v), s') →
    ∀ (l l' : Assembly) (c : Code), l.evalAt l.place p.expr = (.ok (.ready v), l') → (∃ w t, v.lowWord = .ok w ∧
        (size.add c p.expr).run.run l = (.ok (c.add (size.bytes w)), l') ∧
        s'.applyPatch p v = .ok t ∧ s.Overwritten t p.segment p.offset (size.bytes w)) ∨
      ((∃ text, v = .str text) ∧ (size.add c p.expr).run.run l = (.error .numericExpected, l') ∧
        s'.applyPatch p v = .error .numericExpected ∧ ∀ k i, s'.byteAt k i = s.byteAt k i)

theorem Value.lowWord_cases (v : Value) :
    (∃ w, v.lowWord = .ok w) ∨ (∃ text, v = .str text) ∧ v.lowWord = .error .numericExpected := by
  cases v with
  | str text => exact .inr ⟨⟨text, rfl⟩, rfl⟩
  | _ => exact .inl ⟨_, rfl⟩

theorem Patch.agrees_of_inside {p : Patch} {s : Assembly} (hk : p.kind = size.kind ∨ p.kind = size.fieldKind)
    (hin : p.offset + size.kind.span ≤ s.segmentSize p.segment) : p.Agrees size s := by
  intro v s' hv l l' c hl
  have hasked := Asked.ofEvalAt hv
  have hbytes : ∀ k i, s'.byteAt k i = s.byteAt k i := byteAt_congr hasked.segments
  have hsize := segmentSize_congr hasked.segments p.segment
  rw [add_enters size c p.expr l, applyPatch_operand hk, hl]
  dsimp only
  rcases v.lowWord_cases with ⟨w, hw⟩ | ⟨htext, hw⟩ <;> rw [hw]
  · have hin' : p.offset + (size.bytes w).length ≤ s'.segmentSize p.segment := by
      rw [hsize, length_bytes]
      exact hin
    obtain ⟨h, hover⟩ := overwritten_patchBytes hin'
    refine .inl ⟨w, _, rfl, rfl, rfl, hsize ▸ h, fun k i => ?_⟩
    rw [hover k i, hbytes k i]
  · exact .inr ⟨htext, rfl, rfl, hbytes⟩

/-! ## The operand of a line -/

theorem hole_of_extends {c d : Code} {e : Expr} (h : ((c.addHole size.kind e).add size.blank).Extends d) :
    (size.kind, c.bytes.size, e) ∈ d.holes ∧ c.bytes.size + size.kind.span ≤ d.bytes.size := by
  obtain ⟨⟨more, hb⟩, rest, hh⟩ := h
  simp only [Code.bytes_add, Code.bytes_addHole, Code.holes_add, Code.holes_addHole] at hb hh
  have hlength : size.blank.toArray.size = size.kind.span := by simp
  refine ⟨by rw [hh]; simp, ?_⟩
  rw [hb, Array.size_append, Array.size_append, hlength]
  omega

/-! ## Forward references -/

section
variable {a₁ a₂ b : Assembly} {c c₁ d : Code} {e : Expr} {names : List String}

section
variable (hpending : (a.evalAt a.place e).1 = .ok (.pending names)) (hadd : (size.add c e).run.run a = (.ok c₁, a₁))
  (hrest : c₁.Extends d) (hline : Asked a₁ a₂) (hemit : a₂.emit d = (.ok (), b))
include hpending hadd hrest hline hemit

theorem operand_queued : (size.kind, c.bytes.size, e) ∈ d.holes ∧ c.bytes.size + size.kind.span ≤ d.bytes.size ∧
    Asked a a₂ ∧ Emitted a₂ d b := by
  have hasked := (size.add_enters c e).asked a
  rw [hadd] at hasked
  obtain ⟨-, rfl⟩ := ((size.add_enters c e).ok hadd).resolve_right fun h => h.1 (evalAt_pending_iff.1 hpending).1
  obtain ⟨hhole, hsize⟩ := hole_of_extends hrest
  have hne : d.bytes ≠ #[] := by
    rintro hd
    have hpos : 0 < size.kind.span := by cases size <;> simp [kind, PatchKind.span]
    rw [hd, Array.size_empty] at hsize
    omega
  exact ⟨hhole, hsize, hasked.trans hline, .of_ne hemit hne⟩

theorem operand_forward : ∃ p ∈ b.pending, p.kind = size.kind ∧ p.expr = e ∧ p.place = a.place ∧
      p.segment = a.lastSegment ∧ p.offset = a.segmentSize a.lastSegment + c.bytes.size ∧
      ∀ s, Moves b s → p.Agrees size s := by
  obtain ⟨hhole, hsize, ⟨_, _, rfl⟩, hemitted⟩ := operand_queued hpending hadd hrest hline hemit
  refine ⟨a.patchFor (a.segmentSize a.lastSegment) (size.kind, c.bytes.size, e), ?_, rfl, rfl, rfl, rfl, rfl,
    fun t hmoves => ?_⟩
  · rw [hemitted.pending]
    exact Array.mem_append_right _ (List.mem_toArray.2 (List.mem_map.2 ⟨_, hhole, rfl⟩))
  · refine Patch.agrees_of_inside (.inl rfl) (Nat.le_trans ?_ (hmoves.grows.segmentSize_le _))
    have hb : b.segmentSize a.lastSegment = a.segmentSize a.lastSegment + d.bytes.size :=
      (hemitted.size _).trans (congrArg _ (if_pos rfl))
    show a.segmentSize a.lastSegment + c.bytes.size + size.kind.span ≤ b.segmentSize a.lastSegment
    omega

theorem field_forward (hreach : Reachable a) {i : StructInstance} (hi : a.opened = some i) {b' : Assembly}
    (hmove : b.moveOverride i (a.segmentSize i.segment) a.pending.size = (.ok (), b')) (hinside : b'.overrun = false) :
    ∃ p ∈ b'.pending, p.kind = size.fieldKind ∧ p.expr = e ∧ p.place = a.place ∧
      p.segment = i.segment ∧ p.offset = i.start + i.cursor + c.bytes.size ∧ ∀ s, Moves b' s → p.Agrees size s := by
  obtain ⟨hhole, hsize, ⟨_, _, rfl⟩, hemitted⟩ := operand_queued hpending hadd hrest hline hemit
  have hin : i.segment = a.lastSegment := hreach.instanceInPlace i hi
  have hover := hemitted.overridden (by exact hin) hmove hinside
  refine ⟨a.patchFor (i.start + i.cursor) (size.kind.inField, c.bytes.size, e), ?_, size.inField_kind, rfl, rfl,
    hin.symm, rfl, fun t hmoves => ?_⟩
  · rw [hover.pending]
    exact Array.mem_append_right _ (List.mem_toArray.2 (List.mem_map.2 ⟨_, hhole, rfl⟩))
  · refine Patch.agrees_of_inside (.inr size.inField_kind) (Nat.le_trans ?_ (hmoves.grows.segmentSize_le _))
    have hfits := hover.fits
    show i.start + i.cursor + c.bytes.size + size.kind.span ≤ b'.segmentSize a.lastSegment
    rw [hover.size, ← hin]
    omega

end

/-- An operand that has to wait on its line is queued as a patch, for the place in the segment where
its bytes are left blank or, in an override of a field, for the place in the field. However the
assembly goes on, settling the patch has the outcome that the operand would have had on the line with
the same value. -/
theorem forward_reference_agrees (hpending : (a.evalAt a.place e).1 = .ok (.pending names))
    (hadd : (size.add c e).run.run a = (.ok c₁, a₁)) (hrest : c₁.Extends d) (hline : Asked a₁ a₂)
    (hemit : a₂.emit d = (.ok (), b)) :
    (∃ p ∈ b.pending, p.kind = size.kind ∧ p.expr = e ∧ p.place = a.place ∧
      p.segment = a.lastSegment ∧ p.offset = a.segmentSize a.lastSegment + c.bytes.size ∧
      ∀ s, Moves b s → p.Agrees size s) ∧
    ∀ i b', Reachable a → a.opened = some i → b.moveOverride i (a.segmentSize i.segment) a.pending.size = (.ok (), b') →
      b'.overrun = false → ∃ p ∈ b'.pending, p.kind = size.fieldKind ∧ p.expr = e ∧
        p.place = a.place ∧ p.segment = i.segment ∧
        p.offset = i.start + i.cursor + c.bytes.size ∧ ∀ s, Moves b' s → p.Agrees size s :=
  ⟨operand_forward hpending hadd hrest hline hemit, fun _ _ hreach hi hmove hinside =>
    field_forward hpending hadd hrest hline hemit hreach hi hmove hinside⟩

end

/-- An instance of two bytes behind one byte of code, with the next override at a cursor. -/
def twoByteInstance (cursor : Nat) : StructInstance :=
  { name := "S", size := 2, fields := {}, segment := 0, start := 1, cursor }

def withTwoByteInstance (bytes : Array UInt8) (cursor : Nat) (used : List String)
    (pending : Array Patch) : Assembly :=
  { new {} with
    segments := #[{ start := 0x8000, bytes }]
    symbols := { used }
    pending
    opened := some (twoByteInstance cursor) }

theorem withTwoByteInstance_reachable : Reachable (withTwoByteInstance #[7, 8, 9] 0 [] #[]) := by
  refine ⟨{}, ?_⟩
  have hcode : Moves (.new {}) ((new {}).emit (.ofBytes [7, 8, 9])).2 := .single (.emit (.ofBytes _ _))
  exact hcode.tail (.openInstance rfl)

/-- A word in an override that waits for a symbol; once the symbol is known, its bytes replace those
of the instance. -/
theorem forward_reference_agrees_word : ∃ (c₁ : Code) (a₁ b b' s s' t : Assembly) (p : Patch),
      (word.add {} (.symbol ⟨["X"], false⟩)).run.run
        (withTwoByteInstance #[7, 8, 9] 0 [] #[]) = (.ok c₁, a₁) ∧
      a₁.emit c₁ = (.ok (), b) ∧ b.moveOverride (twoByteInstance 0) 3 0 = (.ok (), b') ∧ p ∈ b'.pending ∧ Moves b' s ∧
      s.evalAt p.place p.expr = (.ok (.ready (.int 0x1234)), s') ∧ s'.applyPatch p (.int 0x1234) = .ok t ∧
      (List.range 3).map (t.byteAt 0) = [some 7, some 0x34, some 0x12] := by
  let patch (kind : PatchKind) (offset : Nat) : Patch :=
    ⟨kind, 0, offset, .symbol ⟨["X"], false⟩, none, none, 0, 0x8000, ⟨0, 0⟩⟩
  let b' := withTwoByteInstance #[7, 0, 0] 2 ["X"] #[patch .fieldWord 1]
  have hemit : (withTwoByteInstance #[7, 8, 9] 0 ["X"] #[]).emit
      ((({} : Code).addHole .word (.symbol ⟨["X"], false⟩)).add [0, 0]) =
      (.ok (), withTwoByteInstance #[7, 8, 9, 0, 0] 0 ["X"] #[patch .word 3]) := rfl
  have hmove : (withTwoByteInstance #[7, 8, 9, 0, 0] 0 ["X"] #[patch .word 3]).moveOverride
      (twoByteInstance 0) 3 0 = (.ok (), b') := by
    simp [b', patch, moveOverride, withTwoByteInstance, twoByteInstance, new,
      bytesFrom, cutSegment, patchBytes, Segment.patch,
      Patch.moveToField, PatchKind.inField]
  have hpending : ((withTwoByteInstance #[7, 8, 9] 0 [] #[]).evalAt ⟨none, 0, 0x8000⟩
      (.symbol ⟨["X"], false⟩)).1 = .ok (.pending ["X"]) := rfl
  have hadd : (word.add {} (.symbol ⟨["X"], false⟩)).run.run
      (withTwoByteInstance #[7, 8, 9] 0 [] #[]) =
      (.ok ((({} : Code).addHole .word (.symbol ⟨["X"], false⟩)).add [0, 0]),
        withTwoByteInstance #[7, 8, 9] 0 ["X"] #[]) := rfl
  obtain ⟨-, hfield⟩ := forward_reference_agrees hpending hadd (.refl _) (.refl _) hemit
  obtain ⟨p, hp, -, hexpr, hplace, hsegment, hoffset, hagrees⟩ :=
    hfield _ b' withTwoByteInstance_reachable rfl hmove rfl
  let s : Assembly := { b' with
    symbols := b'.symbols.addSymbol (.module 0) ⟨"X", .label, some (.int 0x1234), ⟨0, 0⟩⟩ }
  have hmoves : Moves b' s := .symbols (.add rfl)
  have hready : s.evalAt p.place p.expr = (.ok (.ready (.int 0x1234)), (s.evalAt p.place p.expr).2) := by
    rw [hexpr, hplace]
    rfl
  have hline : s.place = p.place := hplace.symm
  rcases hagrees s hmoves _ _ hready s _ {} (hline ▸ hready) with
    ⟨w, t, hw, -, ht, -, hover⟩ | ⟨⟨text, h⟩, -⟩
  · cases hw
    refine ⟨_, _, _, b', s, _, t, p, hadd, hemit, hmove, hp, hmoves, hready, ht, ?_⟩
    show [t.byteAt 0 0, t.byteAt 0 1, t.byteAt 0 2] = _
    simp only [hover, hsegment, hoffset]
    rfl
  · cases h

end SpectrumAsm
