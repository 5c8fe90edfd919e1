/-
Overrides of fields and the bytes of their instance.

The size check of overrides uses the size that a structure had where it is defined; its instances may turn out
shorter. While an instance is open it stays the end of its segment, and nothing but overrides happens to that
segment. The open instance is followed through a walk line by line (`Walks.logged`).
-/
import SpectrumAsm.Proofs.Branches
import SpectrumAsm.Proofs.Termination
import SpectrumAsm.Proofs.Upkeep

namespace SpectrumAsm

open Array Step Assembly Stmt

variable {i o : StructInstance} {p : Pragma} {a : Assembly} {line : SourceLine}
  {name : Option String}

/-! ## What leaves an instance alone -/

/-- The open instance stays open or is closed, and no override is made. -/
structure Spares (a b : Assembly) : Prop where
  opened : b.opened = a.opened ∨ b.opened = none
  overrun : b.overrun = a.overrun

/-- What is more, no segment becomes longer or shorter, and none is added. -/
structure Rests (a b : Assembly) : Prop extends Spares a b where
  count : b.segments.size = a.segments.size
  size : ∀ k, b.segmentSize k = a.segmentSize k

namespace Spares

variable {b c : Assembly}

theorem same (ho : b.opened = a.opened) (hv : b.overrun = a.overrun) : Spares a b := ⟨.inl ho, hv⟩

instance : IsPreorder Assembly Spares where
  refl a := same rfl rfl
  trans a b c h h' := by
    refine ⟨?_, h'.overrun.trans h.overrun⟩
    rcases h'.opened with hc | hc
    · rw [hc]
      exact h.opened
    · exact .inr hc

theorem drafting : Drafting Spares where
  note h _ := same h.opened h.overrun
  define a name kind value := by
    rcases a.define_cases name kind (some value) with ⟨fault, h⟩ | ⟨-, h⟩ <;> rw [h] <;> exact same rfl rfl
  setVar a name value := by
    unfold setVar
    dsimp only
    split <;> exact same rfl rfl
  awaitEqu _ hd := by
    obtain rfl := define_ok hd
    exact same rfl rfl
  shift h := by
    obtain ⟨_, rfl⟩ := h.eq
    exact same rfl rfl
  emit {a code} _ := by
    obtain ⟨_, _, h⟩ := a.emit_eq code
    rw [h]
    exact same rfl rfl

theorem runPragma (label : Option String) (p : Pragma) : (runPragma label p).Keeps Spares :=
  drafting.anyPragma (fun _ _ _ => same rfl rfl) (fun _ _ => same rfl rfl) label p

end Spares

namespace Rests

variable {b c : Assembly}

theorem ofSegments (hg : b.segments = a.segments) (ho : b.opened = a.opened ∨ b.opened = none)
    (hv : b.overrun = a.overrun) : Rests a b :=
  ⟨⟨ho, hv⟩, by rw [hg], segmentSize_congr hg⟩

instance : IsPreorder Assembly Rests where
  refl _ := ofSegments rfl (.inl rfl) rfl
  trans a b c h h' := ⟨IsTrans.trans a b c h.toSpares h'.toSpares, h'.count.trans h.count,
    fun k => (h'.size k).trans (h.size k)⟩

theorem note (h : Noted a b) : Rests a b := ofSegments h.segments (.inl h.opened) h.overrun

theorem define (a : Assembly) (name : String) (kind : SymbolKind) (value : Option Value) :
    Rests a (a.define name kind value).2 := by
  rcases a.define_cases name kind value with ⟨fault, h⟩ | ⟨-, h⟩ <;> rw [h] <;>
    exact ofSegments rfl (.inl rfl) rfl

theorem settling : Settling Rests where
  asked h := note (.ofAsked h)
  reportAt a fault pos := note (.reportAt a fault pos)
  assign _ _ _ _ := ofSegments rfl (.inl rfl) rfl
  setEntries _ _ _ := ofSegments rfl (.inl rfl) rfl
  patchBytes a segment offset bytes :=
    ⟨⟨.inl rfl, rfl⟩, size_modify, a.segmentSize_patchBytes segment offset bytes⟩
  setPending _ _ := ofSegments rfl (.inl rfl) rfl

theorem housekeeping : Housekeeping Rests where
  note h _ := note h
  closeInstance _ := ofSegments rfl (.inr rfl) rfl
  define a name kind value := define a name kind value
  addMacro _ _ := ofSegments rfl (.inl rfl) rfl
  addStruct _ _ _ := ofSegments rfl (.inl rfl) rfl
  enterScope _ _ _ := ofSegments rfl (.inl rfl) rfl
  resolveScope := settling.resolveScope
  closeScope _ := ofSegments rfl (.inl rfl) rfl
  enterModule _ := ofSegments rfl (.inl rfl) rfl
  leaveModule _ := ofSegments rfl (.inl rfl) rfl
  openLoop _ _ _ := ofSegments rfl (.inl rfl) rfl
  assign _ _ _ _ := ofSegments rfl (.inl rfl) rfl

theorem lastSegment (h : Rests a b) : b.lastSegment = a.lastSegment := by
  unfold Assembly.lastSegment
  rw [h.count]

end Rests

/-! ## Overrides -/

/-- The bytes a pragma brings for the cursor of an instance, if they pass the size check. -/
def Assembly.overrideData? (a : Assembly) (o : StructInstance) (p : Pragma) : Option (List UInt8) :=
  match (runPragma none p).run.run (a.atField o) with
  | (.ok (), b) =>
    let data := b.bytesFrom o.segment (a.segmentSize o.segment)
    if o.cursor + data.length ≤ o.size then some data else none
  | (.error _, _) => none

/-- The override that a line makes in the open instance and the size check accepts: the instance with its
cursor at the field, and the bytes for it. -/
def Assembly.accepted? (a : Assembly) (line : SourceLine) : Option (StructInstance × List UInt8) :=
  match a.opened, line.stmt with
  | some i, some (.field name p) =>
    if (field name p).hasParam || !p.emitsData then none
    else
      match i.seek name with
      | .ok o => (overrideData? { a.bindLineLabel line with opened := some o } o p).map (o, ·)
      | .error _ => none
  | _, _ => none

/-- A line makes an override that is accepted although its bytes are not all there. -/
def Assembly.Overruns (a : Assembly) (line : SourceLine) : Prop := ∃ o data, a.accepted? line = some (o, data) ∧
    a.segmentSize o.segment < o.start + o.cursor + data.length

/-- What is left of an override: nothing, if it was not accepted; its bytes in their place, if that is inside
the segment; and otherwise the mark that it was not. -/
structure Assembly.Overrides (a : Assembly) (put : Option (StructInstance × List UInt8)) (b : Assembly) :
    Prop where
  size : ∀ k, b.segmentSize k = a.segmentSize k
  refused : put = none → b.overrun = a.overrun ∧ ∀ k j, b.byteAt k j = a.byteAt k j
  inside : ∀ o data, put = some (o, data) →
    o.start + o.cursor + data.length ≤ a.segmentSize o.segment → b.overrun = a.overrun ∧
      ∀ k j, b.byteAt k j = if k = o.segment ∧ o.start + o.cursor ≤ j ∧
        j < o.start + o.cursor + data.length then data[j - (o.start + o.cursor)]? else a.byteAt k j
  outside : ∀ o data, put = some (o, data) → a.segmentSize o.segment < o.start + o.cursor + data.length →
      b.overrun = true ∧ ∀ k j, b.byteAt k j = a.byteAt k j

namespace Assembly.Overrides

variable {b c d : Assembly} {put : Option (StructInstance × List UInt8)}

theorem nothing (hs : ∀ k, b.segmentSize k = a.segmentSize k) (hv : b.overrun = a.overrun)
    (hb : ∀ k j, b.byteAt k j = a.byteAt k j) : a.Overrides none b :=
  ⟨hs, fun _ => ⟨hv, hb⟩, nofun, nofun⟩

theorem congr (h : b.Overrides put c) (hb : b.segments = a.segments) (hvb : b.overrun = a.overrun)
    (hd : d.segments = c.segments) (hvd : d.overrun = c.overrun) : a.Overrides put d := by
  obtain ⟨hsize, hrefused, hinside, houtside⟩ := h
  simp only [segmentSize_congr hb, byteAt_congr hb, hvb, ← segmentSize_congr hd, ← byteAt_congr hd, ← hvd]
    at hsize hrefused hinside houtside
  exact ⟨hsize, hrefused, hinside, houtside⟩

end Assembly.Overrides

theorem putOverride_cases (hp : p.emitsData = true) (hin : o.segment = a.lastSegment) : ∃ b, Asked (a.atField o) b ∧
      ((a.overrideData? o p = none ∧ (((putOverride o p).run.run a).2 = b ∨
          ((putOverride o p).run.run a).2 = b.openSegment)) ∨
        ∃ code c d, code.Built b ∧ code.IsData ∧ b.emit code = (.ok (), c) ∧
          c.moveOverride o (b.segmentSize o.segment) b.pending.size = (.ok (), d) ∧
          (runPragma none p).run.run (a.atField o) = (.ok (), c) ∧ (putOverride o p).run.run a = (.ok (), d) ∧
          a.overrideData? o p = some code.bytes.toList) := by
  obtain ⟨b, hab, hrun⟩ := putOverride_inv hp a
  refine ⟨b, hab, ?_⟩
  unfold overrideData?
  rcases hrun with ⟨fault, c, hr, hput⟩ | ⟨code, c, hbuilt, hdata, he, hr, hput⟩ <;> rw [hr]
  · exact .inl ⟨rfl, hput⟩
  have hlast : o.segment = b.lastSegment := hin.trans (Noted.ofAsked hab).lastSegment.symm
  have hbytes : c.bytesFrom o.segment (a.segmentSize o.segment) = code.bytes.toList := by
    rw [← (hbuilt.emitted he).bytesFrom, ← hlast, segmentSize_congr hab.segments]
    rfl
  dsimp only
  rw [hbytes, length_toList, hput]
  rcases hm : c.moveOverride o (b.segmentSize o.segment) b.pending.size with ⟨outcome, d⟩
  rcases (hbuilt.emitted he).moveOverride_cases hlast hm with ⟨hover, fault, rfl⟩ | ⟨hfits, rfl, -⟩
  · rw [if_neg (Nat.not_le_of_lt hover), moveOverride_error hm]
    exact .inl ⟨rfl, cut_emit he hlast⟩
  · rw [if_pos hfits]
    exact .inr ⟨code, c, d, hbuilt, hdata, he, hm, rfl, rfl, rfl⟩

theorem putOverride_overrides (hp : p.emitsData = true) (hin : o.segment = a.lastSegment) :
    a.Overrides ((a.overrideData? o p).map (o, ·)) ((putOverride o p).run.run a).2 := by
  obtain ⟨b, hab, hcases⟩ := putOverride_cases hp hin
  have hsegments : b.segments = a.segments := hab.segments
  have hoverrun : b.overrun = a.overrun := (Noted.ofAsked hab).overrun
  have hsize := segmentSize_congr hsegments
  have hbytes := byteAt_congr hsegments
  rcases hcases with ⟨hnone, hr | hr⟩ | ⟨code, c, d, hbuilt, -, he, hm, -, hr, hdata⟩
  · rw [hnone, hr]
    exact .nothing hsize hoverrun hbytes
  · obtain ⟨_, ho⟩ := b.openSegment_eq
    rw [hnone, hr]
    refine .nothing (fun k => (b.segmentSize_openSegment k).trans (hsize k)) ?_ fun k j => ?_
    · rw [ho]
      exact hoverrun
    · exact ((Idle.openSegment b).bytes k j).trans (hbytes k j)
  rw [hdata, hr]
  have hlast : o.segment = b.lastSegment := hin.trans (Noted.ofAsked hab).lastSegment.symm
  refine Overrides.congr (b := b) (c := d) ?_ hsegments hoverrun rfl rfl
  rcases (hbuilt.emitted he).moveOverride_cases hlast hm with ⟨-, _, h⟩ | ⟨-, -, h⟩
  · cases h
  rcases h with ⟨hover, hv⟩ | ⟨haccepted, hlt, hv, hkept⟩
  · refine ⟨hover.size, nofun, ?_, ?_⟩ <;> rintro _ _ ⟨⟩ hle <;> rw [length_toList] at hle
    · refine ⟨hv, fun k j => ?_⟩
      rw [hover.bytes, length_toList, getElem?_toList]
    · exact absurd hover.fits (by omega)
  · refine ⟨haccepted.size, nofun, ?_, ?_⟩ <;> rintro _ _ ⟨⟩ hle <;> rw [length_toList] at hle
    · omega
    · exact ⟨hv, hkept⟩

theorem putOverride_opened (hp : p.emitsData = true) (ho : a.opened = some o) :
    ∃ cursor, ((putOverride o p).run.run a).2.opened = some { o with cursor } := by
  have hdata : ((runPragma none p).run.run (a.atField o)).2.opened = some o :=
    ((runPragma_emits hp none).steady (a.atField o)).calm.opened.trans ho
  rw [run_putOverride]
  rcases hr : (runPragma none p).run.run (a.atField o) with ⟨fault | _, b⟩ <;> rw [hr] at hdata
  · exact ⟨o.cursor, hdata⟩
  · dsimp only
    unfold moveOverride
    dsimp only
    split
    · exact ⟨o.cursor, hdata⟩
    · exact ⟨_, rfl⟩

theorem run_overrideField_outside (hi : a.opened = none) (name : Option String) (p : Pragma) :
    (overrideField name p).run.run a = (.error .fieldOutside, a) := by
  unfold overrideField
  rw [run_bind, run_get]
  dsimp only
  rw [hi]
  rfl

theorem run_overrideField (hi : a.opened = some i) (name : Option String) (p : Pragma) :
    (overrideField name p).run.run a = match i.seek name with
      | .error fault => (.error fault, a)
      | .ok o =>
        if p.emitsData then (putOverride o p).run.run { a with opened := some o }
        else (.error .structContent, { a with opened := some o }) := by
  unfold overrideField
  rw [run_bind, run_get]
  dsimp only
  rw [hi]
  rw [run_ofExcept_bind]
  cases i.seek name with
  | error fault => rfl
  | ok o => cases p.emitsData <;> rfl

theorem run_walkSingle_field (hs : line.stmt = some (.field name p)) (a : Assembly) : ((walkSingle none line).run a).2 =
      if (field name p).hasParam then a.report .macroParamOutside
      else ((reporting (overrideField name p)).run (a.bindLineLabel line)).2 := by
  have hkeeps : (field name p).keepsInstance = true := rfl
  rw [run_walkSingle_stmt hs, if_pos hkeeps]
  split <;> rfl

/-- The state in which a line puts its override into the instance, with the cursor at the field. -/
def Assembly.atOverride (a : Assembly) (line : SourceLine) (o : StructInstance) : Assembly :=
  { a.bindLineLabel line with opened := some o }

theorem Assembly.atOverride_same (a : Assembly) (line : SourceLine) (o : StructInstance) :
    (a.atOverride line o).pending = a.pending ∧ (a.atOverride line o).segments = a.segments := by
  obtain ⟨_, _, _, hbound⟩ := a.bindLineLabel_eq line
  unfold atOverride
  rw [hbound]
  exact ⟨rfl, rfl⟩

theorem run_walkSingle_override (hs : line.stmt = some (.field name p)) (hparam : (field name p).hasParam = false)
    (hp : p.emitsData = true) (hi : a.opened = some i) (hseek : i.seek name = .ok o) :
    ((walkSingle none line).run a).2 = ((reporting (putOverride o p)).run (a.atOverride line o)).2 := by
  have hopened := (a.opened_bindLineLabel line).trans hi
  have hrun : (overrideField name p).run.run (a.bindLineLabel line) =
      (putOverride o p).run.run (a.atOverride line o) := by
    rw [run_overrideField hopened, hseek]
    exact if_pos hp
  rw [run_walkSingle_field hs, hparam, run_reporting, run_reporting, hrun]
  rfl

/-- A line with an override leaves what `accepted?` says, and the instance stays open. -/
theorem field_overrides (hi : a.opened = some i) (hin : i.segment = a.lastSegment)
    (hs : line.stmt = some (.field name p)) : a.Overrides (a.accepted? line) ((walkSingle none line).run a).2 ∧
      ∃ cursor, ((walkSingle none line).run a).2.opened = some { i with cursor } := by
  have hkept {b : Assembly} (hg : b.segments = a.segments) (hv : b.overrun = a.overrun) : a.Overrides none b :=
    .nothing (segmentSize_congr hg) hv (byteAt_congr hg)
  rw [run_walkSingle_field hs]
  unfold accepted?
  rw [hi, hs]
  dsimp only
  cases (field name p).hasParam with
  | true =>
    rw [if_pos rfl, Bool.true_or, if_pos rfl]
    exact ⟨hkept rfl rfl, i.cursor, hi⟩
  | false =>
  obtain ⟨_, _, _, hbound⟩ := a.bindLineLabel_eq line
  have hopened := (a.opened_bindLineLabel line).trans hi
  have hsegments : (a.bindLineLabel line).segments = a.segments := by rw [hbound]
  have hoverrun : (a.bindLineLabel line).overrun = a.overrun := by rw [hbound]
  rw [run_reporting, run_overrideField hopened]
  cases hseek : i.seek name with
  | error fault =>
    rw [ite_self]
    exact ⟨hkept hsegments hoverrun, i.cursor, hopened⟩
  | ok o =>
  obtain ⟨cursor, rfl⟩ := i.seek_ok hseek
  cases hp : p.emitsData with
  | false => exact ⟨hkept hsegments hoverrun, cursor, rfl⟩
  | true =>
  have hlast : i.segment = (a.bindLineLabel line).lastSegment := by
    rw [hin]
    unfold lastSegment
    rw [hsegments]
  have hput := putOverride_overrides (o := { i with cursor }) hp
    (a := { a.bindLineLabel line with opened := some { i with cursor } }) hlast
  obtain ⟨cursor', hmoved⟩ := putOverride_opened (o := { i with cursor }) hp
    (a := { a.bindLineLabel line with opened := some { i with cursor } }) rfl
  simp only [Bool.not_true, Bool.false_eq_true, if_false, if_true]
  generalize (putOverride _ p).run.run _ = result at hput hmoved
  obtain ⟨fault | _, b⟩ := result
  · exact ⟨hput.congr hsegments hoverrun rfl rfl, cursor', hmoved⟩
  · exact ⟨hput.congr hsegments hoverrun rfl rfl, cursor', hmoved⟩

/-! ## Invocations -/

def Assembly.Invokes (a : Assembly) (line : SourceLine) (d : StructDef) : Prop :=
  ∃ name, line.stmt = some (.invoke name []) ∧ (a.atInvocation line).symbols.findMacro? name = none ∧
    (a.atInvocation line).symbols.findStruct? name = some d

/-- An instance is the one that a line opened when it was visited: it begins where the code before it ended,
and the segment ends where its own code ended. -/
def StructInstance.MadeBy (i : StructInstance) (visit : SourceLine × Assembly) (a : Assembly) : Prop :=
  ∃ d, visit.2.Invokes visit.1 d ∧ i.name = d.name ∧ i.size = d.size ∧ i.fields = d.fields ∧
    i.segment = visit.2.lastSegment ∧ i.start = visit.2.segmentSize i.segment ∧
    a.segmentSize i.segment = ((walkSingle none visit.1).run visit.2).2.segmentSize i.segment

theorem StructInstance.MadeBy.keep {visit : SourceLine × Assembly} {b : Assembly}
    (h : i.MadeBy visit a) (hsize : ∀ k, b.segmentSize k = a.segmentSize k) (cursor : Nat) :
    StructInstance.MadeBy { i with cursor } visit b := by
  obtain ⟨d, hinvokes, hname, hmeasured, hfields, hsegment, hstart, hend⟩ := h
  exact ⟨d, hinvokes, hname, hmeasured, hfields, hsegment, hstart, (hsize _).trans hend⟩

theorem run_walkSingle_invokes {d : StructDef} (h : a.Invokes line d) :
    ((walkSingle none line).run a).2 = ((invokeStruct d).run (a.atInvocation line)).2 := by
  obtain ⟨name, hs, hnone, hstruct⟩ := h
  have hrun : (invoke none line.pos name []).run.run (a.atInvocation line) =
      (.ok (), ((invokeStruct d).run (a.atInvocation line)).2) := by
    unfold invoke
    rw [run_bind, run_get]
    dsimp only
    rw [hnone, hstruct]
    rfl
  have hline : (runStmt none line (.invoke name [])).run { a with opened := none } =
      (reporting (invoke none line.pos name [])).run (a.atInvocation line) := rfl
  rw [run_walkSingle_stmt hs]
  show ((runStmt none line (.invoke name [])).run { a with opened := none }).2 = _
  rw [hline, run_reporting, hrun]

theorem invokeStruct_opened (d : StructDef) (a : Assembly) :
    ((invokeStruct d).run a).2.overrun = a.overrun ∧ ((invokeStruct d).run a).2.opened =
      some ⟨d.name, d.size, d.fields, a.lastSegment, a.segmentSize a.lastSegment, 0⟩ := by
  have hlines : Spares a.openSegment ((d.body.forM instanceLine).run a.openSegment).2 :=
    Walk.Keeps.forM d.body (fun _ _ => instanceLine_keeps Spares.drafting.note fun p _ =>
      Spares.runPragma none p) a.openSegment
  have hstart : (a.openSegment.segments.back?.map (·.bytes.size)).getD 0 = a.segmentSize a.lastSegment := by
    rw [← a.segmentSize_openSegment, ← a.lastSegment_openSegment, back?_eq_getElem?]
    rfl
  have hopened : ((invokeStruct d).run a).2.opened = some ⟨d.name, d.size, d.fields, a.openSegment.lastSegment,
      (a.openSegment.segments.back?.map (·.bytes.size)).getD 0, 0⟩ := rfl
  rw [hopened, hstart, a.lastSegment_openSegment]
  exact ⟨hlines.overrun.trans (Spares.drafting.shift (.openSegment a)).overrun, rfl⟩

theorem single_spares {s : Stmt} (hs : line.stmt = some s) (hfield : s.keepsInstance = false)
    (hstruct : ∀ d, ¬ a.Invokes line d) : Spares { a with opened := none } ((walkSingle none line).run a).2 := by
  have hsame : (walkSingle none line).run a = (walkSingle none line).run { a with opened := none } := by
    rw [run_walkSingle_stmt hs, run_walkSingle_stmt hs, hfield]
    rfl
  rw [hsame]
  refine Spares.drafting.single (fun _ => ⟨.inr rfl, rfl⟩) (fun hplain => ?_) (fun name p hput => ?_)
    (fun name args hinvoke => ?_) (runStatement_keeps fun _ _ _ _ => .same rfl rfl)
  · exact Spares.drafting.plain none hplain { a with opened := none } fun p label _ _ => Spares.runPragma label p
  · rw [hs] at hput
    cases hput
    cases hfield
  · exact Upkeep.invoke line.pos fun d hnone hd hargs => (hstruct d ⟨name, hargs ▸ hinvoke, hnone, hd⟩).elim

/-! ## Overrides that are not inside -/

namespace Assembly

variable {b : Assembly}

theorem accepted?_of_not_field (h : ∀ name p, line.stmt ≠ some (.field name p)) : a.accepted? line = none := by
  unfold accepted?
  split
  · next name p _ hs => exact absurd hs (h name p)
  · rfl

theorem accepted?_inv {data : List UInt8} (h : a.accepted? line = some (o, data)) :
    ∃ i name p, a.opened = some i ∧ line.stmt = some (.field name p) ∧
      (field name p).hasParam = false ∧ p.emitsData = true ∧ i.seek name = .ok o ∧
      (a.atOverride line o).overrideData? o p = some data := by
  unfold accepted? at h
  split at h
  · next i name p hi hs =>
    split at h
    · cases h
    · next hdata =>
      rw [Bool.or_eq_true, not_or, Bool.not_eq_true, Bool.not_eq_true, Bool.not_eq_false'] at hdata
      split at h
      · next hseek =>
        obtain ⟨_, hput, heq⟩ := Option.map_eq_some_iff.1 h
        cases heq
        exact ⟨i, name, p, hi, hs, hdata.1, hdata.2, hseek, hput⟩
      · cases h
  · cases h

theorem accepted?_some (hi : a.opened = some i) {data : List UInt8} (h : a.accepted? line = some (o, data)) :
    ∃ cursor, o = { i with cursor } ∧ cursor + data.length ≤ i.size := by
  obtain ⟨j, name, p, hj, -, -, -, hseek, hdata⟩ := accepted?_inv h
  rw [hi] at hj
  cases hj
  obtain ⟨cursor, rfl⟩ := i.seek_ok hseek
  refine ⟨cursor, rfl, ?_⟩
  unfold overrideData? at hdata
  split at hdata
  · dsimp only at hdata
    split at hdata
    · next hle => cases hdata; exact hle
    · cases hdata
  · cases hdata

theorem overrun_of_none (h : a.accepted? line = none) (hv : b.overrun = a.overrun) :
    b.overrun = true ↔ a.overrun = true ∨ a.Overruns line := by
  simp [Overruns, h, hv]

namespace Overrides

theorem overrun_iff (h : a.Overrides (a.accepted? line) b) : b.overrun = true ↔ a.overrun = true ∨ a.Overruns line := by
  rcases hput : a.accepted? line with _ | ⟨o, data⟩
  · exact overrun_of_none hput (h.refused hput).1
  by_cases hle : o.start + o.cursor + data.length ≤ a.segmentSize o.segment
  · rw [(h.inside o data hput hle).1]
    refine ⟨.inl, fun hv => hv.resolve_right ?_⟩
    rintro ⟨o', data', hput', hlt⟩
    rw [hput] at hput'
    cases hput'
    omega
  · have hlt : a.segmentSize o.segment < o.start + o.cursor + data.length := by omega
    exact ⟨fun _ => .inr ⟨o, data, hput, hlt⟩, fun _ => (h.outside o data hput hlt).1⟩

theorem changes_inside (h : a.Overrides (a.accepted? line) b) (hi : a.opened = some i) {k j : Nat}
    (hchanged : b.byteAt k j ≠ a.byteAt k j) : k = i.segment ∧ i.start ≤ j ∧ j < i.start + i.size := by
  rcases hput : a.accepted? line with _ | ⟨o, data⟩
  · exact absurd ((h.refused hput).2 k j) hchanged
  obtain ⟨cursor, rfl, hfits⟩ := accepted?_some hi hput
  by_cases hle : i.start + cursor + data.length ≤ a.segmentSize i.segment
  · rw [(h.inside _ data hput hle).2] at hchanged
    split at hchanged
    · next hcovered =>
      obtain ⟨hk, hfrom, hto⟩ := hcovered
      exact ⟨hk, by dsimp only at hfrom; omega, by dsimp only at hto; omega⟩
    · exact absurd rfl hchanged
  · exact absurd ((h.outside _ data hput (Nat.lt_of_not_le hle)).2 k j) hchanged

end Overrides

end Assembly

/-! ## Lines one after the other -/

theorem Assembly.not_field_of_invoked (h : a.invoked? line ≠ none) (name : Option String)
    (p : Pragma) : line.stmt ≠ some (.field name p) := fun hs => by
  simp [invoked?, hs] at h

/-- What the lines visited so far say about the state: whether an override was put outside of its instance,
and which line opened the instance. -/
structure Logged (log : List (SourceLine × Assembly)) (a : Assembly) : Prop where
  reachable : Reachable a
  overrun : a.overrun = true ↔ ∃ visit ∈ log, visit.2.Overruns visit.1
  opened : ∀ i, a.opened = some i → ∃ visit ∈ log, i.MadeBy visit a

namespace Logged

variable {log : List (SourceLine × Assembly)} {b : Assembly}

theorem new (setup : Setup) : Logged [] (.new setup) := ⟨⟨setup, .refl⟩, ⟨nofun, by simp⟩, nofun⟩

theorem rests (h : Logged log a) (hr : Rests a b) (hb : Reachable b) : Logged log b := by
  refine ⟨hb, hr.overrun ▸ h.overrun, fun i hi => ?_⟩
  rcases hr.opened with ho | ho
  · obtain ⟨visit, hv, hmade⟩ := h.opened i (ho ▸ hi)
    exact ⟨visit, hv, hmade.keep hr.size i.cursor⟩
  · rw [ho] at hi
    cases hi

theorem push (h : Logged log a) (hb : Reachable b) (hv : b.overrun = true ↔ a.overrun = true ∨ a.Overruns line)
    (ho : ∀ i, b.opened = some i → i.MadeBy (line, a) b ∨
      ∃ j, a.opened = some j ∧ ∀ visit, j.MadeBy visit a → i.MadeBy visit b) : Logged (log ++ [(line, a)]) b := by
  refine ⟨hb, ?_, fun i hi => ?_⟩
  · rw [hv, h.overrun]
    simp
  · rcases ho i hi with hmade | ⟨j, hj, hmade⟩
    · exact ⟨_, List.mem_append_right _ (List.mem_singleton_self _), hmade⟩
    · obtain ⟨visit, hm, hold⟩ := h.opened j hj
      exact ⟨visit, List.mem_append_left _ hm, hmade visit hold⟩

theorem push_rests (h : Logged log a) (hr : Rests a b) (hb : Reachable b) (hn : a.accepted? line = none) :
    Logged (log ++ [(line, a)]) b := by
  refine h.push hb (overrun_of_none hn hr.overrun) fun i hi => .inr ?_
  rcases hr.opened with ho | ho
  · exact ⟨i, ho ▸ hi, fun visit hmade => hmade.keep hr.size i.cursor⟩
  · rw [ho] at hi
    cases hi

/-- A line keeps the log true if it is added to it, with the state it is walked in. -/
theorem single (h : Logged log a) (hb : Reachable ((walkSingle none line).run a).2) :
    Logged (log ++ [(line, a)]) ((walkSingle none line).run a).2 := by
  have hhouse := Rests.housekeeping
  cases hs : line.stmt with
  | none =>
    refine h.push_rests ?_ hb (accepted?_of_not_field (by simp [hs]))
    unfold walkSingle
    rw [hs]
    cases line.label with
    | none => exact refl a
    | some label => exact Naming.chain (hhouse.flushLabel a) (.note (.setHanging _ _))
  | some s =>
  cases hfield : s.keepsInstance with
  | true =>
    obtain ⟨name, p, rfl⟩ : ∃ name p, s = .field name p := by
      cases s <;> first | exact ⟨_, _, rfl⟩ | cases hfield
    cases hi : a.opened with
    | none =>
      refine h.push_rests ?_ hb (by simp [accepted?, hi])
      rw [run_walkSingle_field hs]
      have hopened := (a.opened_bindLineLabel line).trans hi
      split
      · exact hhouse.report a _
      · rw [run_reporting, run_overrideField_outside hopened]
        exact Naming.chain (hhouse.bindLineLabel a line) (hhouse.report _ _)
    | some i =>
      obtain ⟨hput, cursor, hkept⟩ := field_overrides hi (h.reachable.instanceInPlace i hi) hs
      refine h.push hb hput.overrun_iff fun j hj => .inr ⟨i, hi, ?_⟩
      rw [hkept] at hj
      cases hj
      exact fun visit hmade => hmade.keep hput.size cursor
  | false =>
    have hnone : a.accepted? line = none := accepted?_of_not_field fun name p hp => by
      rw [hs] at hp
      cases hp
      cases hfield
    by_cases hstruct : ∃ d, a.Invokes line d
    · obtain ⟨d, hinvokes⟩ := hstruct
      have hrests := hhouse.atInvocation a line
      obtain ⟨hv, ho⟩ := invokeStruct_opened d (a.atInvocation line)
      rw [← run_walkSingle_invokes hinvokes] at hv ho
      refine h.push hb (overrun_of_none hnone (hv.trans hrests.overrun)) fun i hi => .inl ?_
      rw [ho] at hi
      cases hi
      refine ⟨d, hinvokes, rfl, rfl, rfl, hrests.lastSegment, ?_, rfl⟩
      exact hrests.size _
    · have hspares := single_spares hs hfield fun d hd => hstruct ⟨d, hd⟩
      have hclosed : ((walkSingle none line).run a).2.opened = none := hspares.opened.elim id id
      refine h.push hb (overrun_of_none hnone hspares.overrun) fun i hi => ?_
      rw [hclosed] at hi
      cases hi

theorem next (call : Call) (a : Assembly) (log : List (SourceLine × Assembly)) (h : Logged log a) :
    (call.next a).Logs Logged call a log := by
  refine Rests.housekeeping.logs (fun _ _ => .ofSegments rfl (.inl rfl) rfl) ?_ ?_ ?_ call a log h
  · exact fun hlog hrests hmoves => hlog.rests hrests (hmoves.reachable hlog.reachable)
  · exact fun hlog hmoves => hlog.single (hmoves.reachable hlog.reachable)
  · intro log a line hlog hinvoked hmoves
    exact hlog.push_rests (Rests.housekeeping.atInvocation a line) (hmoves.reachable hlog.reachable)
      (accepted?_of_not_field (not_field_of_invoked hinvoked))

end Logged

/-- Overrides stay inside what was put there for their instance, or else are known for it. An instance that is
open on a line is the end of the last segment and has exactly the bytes that the lines of its structure brought
there. An override that passes the size check is outside of the segment if and only if it reaches behind these
bytes; the assembly has an overrun if and only if this happens somewhere. No byte outside of the instance changes
in either case, and no segment becomes longer or shorter. -/
theorem overrides_overrun_iff (setup : Setup) (lines : List SourceLine) :
    ∃ t, Walks (.lines lines) (.new setup) t ((walkProgram lines).run (.new setup)).2 ∧
      (((assembleLines lines).run (.new setup)).2.overrun = true ↔ ∃ visit ∈ t.visits, visit.2.Overruns visit.1) ∧
      ∀ before line a after, t.visits = before ++ (line, a) :: after → ∀ i, a.opened = some i →
        i.segment = a.lastSegment ∧ (∃ visit ∈ before, i.MadeBy visit a) ∧
        (i.start + i.size ≤ a.segmentSize i.segment → ¬ a.Overruns line) ∧ ∀ name p, line.stmt = some (.field name p) →
          a.Overrides (a.accepted? line) ((walkSingle none line).run a).2 ∧
          ∀ k j, ((walkSingle none line).run a).2.byteAt k j ≠ a.byteAt k j →
            k = i.segment ∧ i.start ≤ j ∧ j < i.start + i.size := by
  obtain ⟨t, ht⟩ := walkProgram_walks setup lines
  obtain ⟨hwalked, hvisits⟩ := ht.logged Logged.next (Logged.new setup)
  refine ⟨t, ht, ?_, fun before line a after hsplit i hi => ?_⟩
  · have hend : Rests ((walkProgram lines).run (.new setup)).2 ((assembleLines lines).run (.new setup)).2 :=
      Naming.chain (Rests.housekeeping.flushLabel _) (Rests.settling.resolveAll Rests.note _)
    rw [hend.overrun]
    simpa using hwalked.overrun
  · have hlogged := hvisits before (line, a) after hsplit
    have hin := hlogged.reachable.instanceInPlace i hi
    refine ⟨hin, by simpa using hlogged.opened i hi, ?_, fun name p hs => ?_⟩
    · rintro hcomplete ⟨o, data, hput, hlt⟩
      obtain ⟨cursor, rfl, hfits⟩ := accepted?_some hi hput
      dsimp only at hlt
      omega
    · have hput := (field_overrides hi hin hs).1
      exact ⟨hput, fun k j => hput.changes_inside hi⟩

/-- A structure that has two bytes where it is defined and none where it is invoked, and an override of its
first byte. -/
def linesWithShortInstance : List SourceLine := [⟨⟨0, 0⟩, some "n", some (.pragma (.var (.int 2))), none⟩,
    ⟨⟨0, 1⟩, some "s", some (.statement .structDef), none⟩,
    ⟨⟨0, 2⟩, none, some (.pragma (.defs (.symbol ⟨["N"], false⟩))), none⟩,
    ⟨⟨0, 3⟩, none, some (.statement .endStruct), none⟩,
    ⟨⟨0, 4⟩, some "n", some (.pragma (.var (.int 0))), none⟩,
    ⟨⟨0, 5⟩, none, some (.invoke "s" []), none⟩,
    ⟨⟨0, 6⟩, none, some (.field none (.defb [.int 1])), none⟩]

/-- The override is accepted and nothing is reported, but its byte is not there. -/
theorem overrides_overrun_iff_short :
    let final := ((assembleLines linesWithShortInstance).run (.new {})).2
    final.diagnostics = #[] ∧ final.segments = #[⟨0x8000, none, #[]⟩] ∧ final.overrun = true ∧
    ∃ t, Walks (.lines linesWithShortInstance) (.new {}) t
        ((walkProgram linesWithShortInstance).run (.new {})).2 ∧
      ∃ visit ∈ t.visits, visit.2.Overruns visit.1 := by
  obtain ⟨t, ht, hiff, -⟩ := overrides_overrun_iff {} linesWithShortInstance
  have hoverrun : ((assembleLines linesWithShortInstance).run (.new {})).2.overrun = true := by decide +kernel
  exact ⟨isEmpty_iff.1 (by decide +kernel), by decide +kernel, hoverrun, t, ht, hiff.1 hoverrun⟩

end SpectrumAsm
