/-
Single lines in states that are alike.

Outside of loops that are written out a line does the same in both states; inside of a pass that is written
out only lines are met that put bytes into the program. A label that waits in the first state may stand on the
line itself in the second (`AtLine`).
-/
import SpectrumAsm.Proofs.AlikeSteps
import SpectrumAsm.Proofs.Upkeep

namespace SpectrumAsm

open List Assembly Stmt

variable {K : Rewriting} {π : ScopeMap} {l m : SourceLine} {a b : Assembly} {body body' : List SourceLine} {line : Prop}

theorem SourceLine.Filled.exprs (h : l.Filled) {s : Stmt} (hs : l.stmt = some s) : ∀ e ∈ s.exprs, e.params = [] :=
  (hasParam_eq_false.1 (h s hs)).2

/-! ## Structures -/

theorem fits_of_defineStruct {name : Option String} {body : List SourceLine} {close : SourceLine}
    (h : ((reporting (defineStruct name body close)).run a).2.diagnostics = a.diagnostics) :
    ∀ l ∈ body, fitsStruct l = true := by
  suffices hfaults : structFaults body close = [] from fits_of_structFaults hfaults
  cases name with
  | none => exact absurd h (report_ne a .structName)
  | some name =>
  unfold defineStruct at h
  rw [run_reporting, Step.run_bind, Step.run_get] at h
  dsimp only at h
  by_cases hdefined : a.symbols.hasStruct (Text.upcase name) = true
  · rw [if_pos hdefined] at h
    exact absurd h (report_ne a _)
  rw [if_neg hdefined] at h
  cases hfaults : structFaults body close with
  | nil => rfl
  | cons first rest =>
    rw [hfaults] at h
    have hsize := size_foldl_reportAt Prod.fst Prod.snd (first :: rest) a
    rw [show ((first :: rest).foldl (fun a x => a.reportAt x.1 x.2) a).diagnostics = a.diagnostics from h,
      length_cons] at hsize
    omega

/-- The label of a line is a field of the structure being measured. -/
def Assembly.measureLabel (a : Assembly) (fields : NameTable Nat) : Option String → NameTable Nat × Assembly
  | none => (fields, a)
  | some label =>
    let a := if fields.contains (Text.upcase label) then a.report (.duplicateField label) else a
    (fields.insert (Text.upcase label) ((a.segments[0]?.map (·.bytes.size)).getD 0), a)

/-- What the line of a structure puts into the program. -/
def Assembly.putLine (a : Assembly) (line : SourceLine) : Assembly :=
  match line.stmt with
  | some (.pragma p) => ((reporting (runPragma none p)).run a).2
  | _ => a

theorem run_measureLine (fields : NameTable Nat) (line : SourceLine) (a : Assembly) : (measureLine fields line).run a =
      (((a.moveTo line.pos).measureLabel fields line.label).1,
        ((a.moveTo line.pos).measureLabel fields line.label).2.putLine line) := by
  obtain ⟨pos, label, stmt, comment⟩ := line
  have hput (fields : NameTable Nat) (a : Assembly) : StateT.run (do
      match stmt with
      | some (.pragma p) => reporting (runPragma none p)
      | _ => pure ()
      return fields : Walk (NameTable Nat)) a = (fields, a.putLine ⟨pos, label, stmt, comment⟩) := by
    unfold putLine
    split <;> rfl
  cases label with
  | none => exact hput fields _
  | some label =>
    unfold measureLine measureLabel
    dsimp only
    split
    · exact hput _ _
    · exact hput _ _

theorem Assembly.measureLabel_eq (a : Assembly) (fields : NameTable Nat) (label : Option String) :
    ∃ ds, (a.measureLabel fields label).2 = { a with diagnostics := ds } := by
  unfold measureLabel
  split
  · exact ⟨_, rfl⟩
  · dsimp only
    split <;> exact ⟨_, rfl⟩

theorem measureLabel_alike (h : a.Alike K π none line b) (fields : NameTable Nat) (label : Option String) :
    (b.measureLabel fields (label.map K.case)).1 = (a.measureLabel fields label).1 ∧
      (a.measureLabel fields label).2.Alike K π none line (b.measureLabel fields (label.map K.case)).2 := by
  cases label with
  | none => exact ⟨rfl, h⟩
  | some label =>
    unfold measureLabel
    dsimp only [Option.map_some]
    rw [K.upcase_case]
    split
    · have hreported := h.report (f := .duplicateField label) (g := .duplicateField (K.case label)) (.of rfl rfl)
      rw [hreported.segments]
      exact ⟨rfl, hreported⟩
    · rw [h.segments]
      exact ⟨rfl, h⟩

theorem putLine_alike (h : OnLine K π none a b) (hs : m.stmt = l.stmt.map (renamed K.case))
    (hfilled : K.filled → l.Filled) : OnLine K π none (a.putLine l) (b.putLine m) := by
  unfold putLine
  rw [hs]
  cases hl : l.stmt with
  | none => exact h
  | some s =>
    cases s with
    | pragma p => exact (reporting_alike (h.runPragma (fun hf => (hfilled hf).exprs hl) none)).2
    | _ => exact h

/-- The lines of a structure are measured alike. -/
theorem measureLines_alike (hbody : Bodies K body body') (fields : NameTable Nat) (h : OnLine K π none a b) :
    (body.foldlM measureLine fields).Alike K π none (body'.foldlM measureLine fields) a b := by
  induction hbody generalizing fields a b with
  | nil => exact ⟨rfl, h⟩
  | @cons l m ls ms hline _ ih =>
    rw [foldlM_cons, foldlM_cons]
    refine Walk.Sim.agree_bind (L := OnLine K π none) ?_ fun fields _ _ h => ih fields h
    obtain ⟨hfields, hmeasured⟩ := measureLabel_alike (h.moveTo hline.pos) fields l.label
    unfold Walk.Sim
    rw [run_measureLine, run_measureLine, hline.label]
    exact ⟨hfields, putLine_alike hmeasured hline.stmt hline.filled⟩
  | @label label l m ls ms hjoins _ ih =>
    obtain ⟨name, hname, hname'⟩ := hjoins.name
    -- the first state moves on to the second line, on which the other one is already
    have hmoved : Alike K π none False (a.moveTo label.pos) (b.moveTo m.pos) :=
      { h with held := held_none, pos := fun he => absurd he hjoins.inexact, origin := False.elim, file := False.elim }
    obtain ⟨hfields, hmeasured⟩ := measureLabel_alike hmoved fields (some name)
    obtain ⟨ds, hds⟩ := (b.moveTo m.pos).measureLabel_eq fields (some (K.case name))
    have hcaught : OnLine K π none
        (((a.moveTo label.pos).measureLabel fields (some name)).2.moveTo l.pos)
        ((b.moveTo m.pos).measureLabel fields (some (K.case name))).2 :=
      { hmeasured with
        held := held_none
        pos := fun he => absurd he hjoins.inexact
        origin := fun _ => by
          refine Eq.trans ?_ hmeasured.address
          rw [Option.map_some, hds]
          rfl
        file := fun _ => by
          rw [hds]
          exact hjoins.file }
    have hput := putLine_alike hcaught hjoins.stmt_renamed fun _ => hjoins.filled
    have hboth : Walk.Alike K π none (do
        let fields ← measureLine fields label
        measureLine fields l) (measureLine fields m) a b := by
      show Agreeing _
        ((measureLine ((measureLine fields label).run a).1 l).run ((measureLine fields label).run a).2).1 _
        ((measureLine ((measureLine fields label).run a).1 l).run ((measureLine fields label).run a).2).2 _
      rw [run_measureLine, run_measureLine, run_measureLine, hname, hname', hjoins.unlabelled]
      have hbare (a : Assembly) : a.putLine label = a := by
        unfold putLine
        rw [hjoins.bare]
      rw [hbare]
      exact ⟨hfields, hput⟩
    rw [foldlM_cons, foldlM_cons]
    simp only [foldlM_cons]
    rw [← bind_assoc]
    exact hboth.agree_bind fun fields _ _ h => ih fields h

namespace OnLine

section
variable (h : OnLine K π none a b)
include h

theorem measureStruct (hbody : Bodies K body body') :
    (measureStruct body).Alike K π none (measureStruct body') a b := by
  have hmeasured := measureLines_alike hbody {} (a := { a with segments := #[{ start := 0 }] })
    (b := { b with segments := #[{ start := 0 }] }) (π := π) (h.setSegments rfl)
  refine .get_bind (.modify_bind (hmeasured.agree_bind fun fields c d hstate => .get_bind (.modify_bind ?_)))
  rw [hstate.segments, h.segments]
  exact ⟨rfl, ((hstate.setSegments rfl).setPending h.pending).setPos (h.samePos trivial)⟩

theorem enterStruct (key : String) (hbody : Bodies K body body') :
    (enterStruct key body).Alike K π none (enterStruct key body') a b := by
  refine (h.measureStruct hbody).lift.agree_bind fun measured a b h => ?_
  refine (Step.Sim.forM (P := Eq) (forall₂_refl _) (fun symbol _ a b hsymbol h => ?_) h).agree_bind
    fun _ a b h => .modify (h.setSymbols (h.symbols.addStruct ⟨rfl, rfl, rfl, hbody⟩))
  subst hsymbol
  exact (Step.Sim.of (Alike.define h rfl symbol.2.1 _)).bind fun _ _ a b hab => .pure ⟨rfl, hab.2⟩

end

end OnLine

namespace Bodies

variable (h : Bodies K body body')
include h

omit h in
theorem fitsStruct_renamed (hs : m.stmt = l.stmt.map (renamed K.case)) : fitsStruct m = fitsStruct l := by
  unfold fitsStruct
  rw [hs]
  cases l.stmt with
  | none => rfl
  | some s =>
    cases s with
    | pragma p => exact p.emitsData_renamed
    | _ => rfl

theorem misfits : Forall₂ (fun l m => K.exact → m.pos = l.pos) (body.filter fun l => !fitsStruct l)
    (body'.filter fun l => !fitsStruct l) := by
  have hcons {l m : SourceLine} {ls ms : List SourceLine} (hs : m.stmt = l.stmt.map (renamed K.case))
      (hpos : K.exact → m.pos = l.pos) (ih : Forall₂ (fun l m => K.exact → m.pos = l.pos)
        (ls.filter fun l => !fitsStruct l) (ms.filter fun l => !fitsStruct l)) :
      Forall₂ (fun l m => K.exact → m.pos = l.pos) ((l :: ls).filter fun l => !fitsStruct l)
        ((m :: ms).filter fun l => !fitsStruct l) := by
    rw [filter_cons, filter_cons, fitsStruct_renamed hs]
    split
    · exact .cons hpos ih
    · exact ih
  induction h with
  | nil => exact .nil
  | cons hline _ ih => exact hcons hline.stmt hline.pos.2 ih
  | @label label l m ls ms hjoins _ ih =>
    have hfits : fitsStruct label = true := by
      unfold fitsStruct
      rw [hjoins.bare]
    rw [filter_cons, hfits]
    exact hcons hjoins.stmt_renamed (fun he => absurd he hjoins.inexact) ih

theorem endsWithLabel : endsWithLabel body' = endsWithLabel body := by
  unfold SpectrumAsm.endsWithLabel
  generalize false = ends
  induction h generalizing ends with
  | nil => rfl
  | cons hline _ ih =>
    rw [foldl_cons, foldl_cons, hline.label, hline.stmt, Option.isNone_map, Option.isSome_map]
    exact ih _
  | label hjoins _ ih =>
    obtain ⟨s, hs, hs', -⟩ := hjoins.stmt
    rw [foldl_cons, foldl_cons, foldl_cons, hs, hs']
    exact ih _

variable {close close' : SourceLine}

theorem structFaults (hclose : K.Line close close') :
    Forall₂ (fun x y => SameFault K.filled x.1 y.1 ∧ (K.exact → y.2 = x.2)) (structFaults body close)
      (structFaults body' close') := by
  refine rel_append ?_ ?_
  · exact forall₂_map_left_iff.2 (forall₂_map_right_iff.2 (h.misfits.imp fun _ _ hpos => ⟨.of rfl rfl, hpos⟩))
  · rw [hclose.label, Option.isSome_map, h.endsWithLabel]
    split
    · exact .cons ⟨.of rfl rfl, hclose.pos.2⟩ .nil
    · exact .nil

end Bodies

namespace OnLine

variable (h : OnLine K π none a b)
include h

theorem defineStruct (name : Option String) (hbody : Bodies K body body') (hclose : K.Line close close') :
    (defineStruct name body close).Alike K π none (defineStruct (name.map K.case) body' close') a b := by
  have hfaults := hbody.structFaults hclose
  have hreports {xs ys : List (Fault × Position)}
      (hxs : Forall₂ (fun x y => SameFault K.filled x.1 y.1 ∧ (K.exact → y.2 = x.2)) xs ys)
      {a b : Assembly} (h : OnLine K π none a b) : OnLine K π none (xs.foldl (fun a x => a.reportAt x.1 x.2) a)
        (ys.foldl (fun a x => a.reportAt x.1 x.2) b) := by
    induction hxs generalizing a b with
    | nil => exact h
    | cons hx _ ih => exact ih (h.reportAt hx.1 hx.2)
  cases name with
  | none => exact .throw rfl h
  | some name =>
    refine .get_bind ?_
    rw [h.symbols.hasStruct, K.upcase_case]
    split
    · exact .fail_bind (by exact .of rfl rfl) h
    refine Step.Sim.agree_bind (.modify (hreports hfaults h)) fun _ a b h => ?_
    generalize structFaults body close = faults at hfaults
    generalize structFaults body' close' = faults' at hfaults
    cases hfaults with
    | nil => exact h.enterStruct _ hbody
    | cons => exact .pure ⟨rfl, h⟩

/-! ## Instances and overrides -/

theorem instanceLine (hpos : K.SamePos l.pos m.pos) (hs : m.stmt = l.stmt.map (renamed K.case))
    (hfilled : K.filled → l.Filled) : (instanceLine l).Alike K π none (instanceLine m) a b := by
  unfold SpectrumAsm.instanceLine
  rw [hs]
  cases hl : l.stmt with
  | none => exact ⟨rfl, h⟩
  | some s =>
    cases s with
    | pragma p =>
      exact .modify_bind (reporting_alike
        (OnLine.runPragma (h.moveTo hpos) (fun hf => (hfilled hf).exprs hl) none))
    | _ => exact ⟨rfl, h⟩

theorem instanceLines (hbody : Bodies K body body') :
    Walk.Alike K π none (body.forM SpectrumAsm.instanceLine) (body'.forM SpectrumAsm.instanceLine) a b := by
  induction hbody generalizing a b with
  | nil => exact ⟨rfl, h⟩
  | cons hline _ ih => exact (h.instanceLine hline.pos hline.stmt hline.filled).agree_bind fun _ _ _ h => ih h
  | @label label l m ls ms hjoins _ ih =>
    have hbare : SpectrumAsm.instanceLine label = pure () := by
      unfold SpectrumAsm.instanceLine
      rw [hjoins.bare]
    have hpos : K.SamePos l.pos m.pos := ⟨hjoins.file, fun he => absurd he hjoins.inexact⟩
    have hboth := h.instanceLine hpos hjoins.stmt_renamed fun _ => hjoins.filled
    show Walk.Alike K π none (SpectrumAsm.instanceLine label >>= fun _ => (l :: ls).forM SpectrumAsm.instanceLine) _ a b
    rw [hbare, pure_bind]
    exact hboth.agree_bind fun _ _ _ h => ih h

theorem invokeStruct {d d' : StructDef} (hd : d.Alike K d') :
    (invokeStruct d).Alike K π none (invokeStruct d') a b := by
  have hopen := h.openSegment
  refine .modify_bind (.get_bind ?_)
  rw [hopen.lastSegment, hopen.segments, hd.name, hd.size, hd.fields]
  refine (instanceLines hopen hd.body).agree_bind fun _ c e h => ⟨rfl, ?_⟩
  exact (h.setPos (hopen.samePos trivial)).setOpened _

section
variable {p : Pragma} (hfilled : K.filled → ∀ e ∈ p.exprs, e.params = [])
include hfilled

theorem putOverride (i : StructInstance) : (putOverride i p).Alike K π none (putOverride i (p.renamed K.case)) a b := by
  refine .get_bind ?_
  rw [segmentSize_congr h.segments, h.size_pending]
  refine Step.Sim.agree_bind (L := OnLine K π none) (.modify ?_) fun _ a b h => ?_
  · exact { h with held := held_none, origin := fun _ => by dsimp only; rw [h.segments] }
  refine (OnLine.runPragma h hfilled none).attempt.bind fun _ _ a b houtcome => ?_
  cases houtcome with
  | ok h => exact .of (h.2.moveOverride i _ _)
  | error hfault h => exact Step.Sim.agree_bind (.modify (h.cut _ _ _)) fun _ a b h => .fail hfault h

theorem overrideField (field : Option String) :
    (overrideField field p).Alike K π none (overrideField (field.map K.case) (p.renamed K.case)) a b := by
  have hput {a b : Assembly} (h : OnLine K π none a b) (i : StructInstance) : Step.Alike K π none
      (do
        modify fun a => { a with opened := some i }
        unless p.emitsData do throw .structContent
        SpectrumAsm.putOverride i p)
      (do
        modify fun a => { a with opened := some i }
        unless (p.renamed K.case).emitsData do throw .structContent
        SpectrumAsm.putOverride i (p.renamed K.case)) a b := by
    rw [p.emitsData_renamed]
    refine Step.Sim.agree_bind (L := OnLine K π none) (.modify (h.setOpened _)) fun _ a b h => ?_
    cases p.emitsData with
    | false => exact .throw_bind rfl h
    | true => exact OnLine.putOverride h hfilled i
  refine .get_bind ?_
  rw [h.opened]
  cases a.opened with
  | none => exact .throw rfl h
  | some i =>
    cases field with
    | none => exact hput h i
    | some field =>
      dsimp only [StructInstance.seek, Option.map_some]
      rw [K.upcase_case]
      cases i.fields.get? (Text.upcase field) with
      | none => exact .fail_bind (by exact .of rfl rfl) h
      | some cursor => exact hput h _

end

/-! ## Statements -/

theorem leavePass (exit : LoopExit) {fault : Fault} (hfault : fault.isParam = false) :
    (leavePass exit fault).Alike K π none (leavePass exit fault) a b := by
  have hkind : b.symbols.topScope?.map (·.kind) = a.symbols.topScope?.map (·.kind) :=
    rel_map_eq h.symbols.topScope fun _ _ hs => hs.kind
  unfold SpectrumAsm.leavePass isInScope
  refine .get_bind ?_
  rw [hkind]
  split
  · exact .modify (h.setSymbols (h.symbols.modifyTop (fun _ => rfl) (fun _ => rfl) fun _ _ hs =>
      { hs with exit := rfl }))
  · exact .throw_bind hfault h

theorem declareLocals (names : List String) :
    (runStatement (.locals names)).Alike K π none (runStatement (.locals (names.map K.case))) a b := by
  have hkind : b.symbols.topScope?.map (·.kind) = a.symbols.topScope?.map (·.kind) :=
    rel_map_eq h.symbols.topScope fun _ _ hs => hs.kind
  unfold runStatement isInScope
  refine .get_bind ?_
  rw [hkind]
  split
  · refine .forM (forall₂_map K.case names) (fun name name' a b hn h => ?_) h
    have hlocals : b.symbols.topScope?.map (·.locals) = a.symbols.topScope?.map (·.locals) :=
      rel_map_eq h.symbols.topScope fun _ _ hs => hs.locals
    refine .get_bind ?_
    rw [hlocals, hn, K.upcase_case]
    dsimp only
    split
    · exact .fail_bind (by exact .of rfl rfl) h
    · exact .modify (h.setSymbols (h.symbols.modifyTop (fun _ => rfl) (fun _ => rfl) fun _ _ hs =>
        { hs with locals := congrArg (_ :: ·) hs.locals }))
  · exact .throw_bind rfl h

theorem runStatement (s : Statement) : (runStatement s).Alike K π none (runStatement (s.renamed K.case)) a b := by
  cases s with
  | breakLoop | continueLoop => exact h.leavePass _ rfl
  | locals names => exact h.declareLocals names
  | _ => exact .pure ⟨rfl, h⟩

/-! ## Macros -/

theorem reportUnknown {xs ys : List (String × Position)}
    (hxy : ¬K.Quiet → Forall₂ (fun x y => K.exact → y.2 = x.2) xs ys) : OnLine K π none
      (xs.foldl (fun a (param, pos) => a.reportAt (.unknownMacroArg param) pos) a)
      (ys.foldl (fun a (param, pos) => a.reportAt (.unknownMacroArg param) pos) b) := by
  have hsilent (xs : List (String × Position)) (a : Assembly) : ∃ ds,
      xs.foldl (fun a (param, pos) => a.reportAt (.unknownMacroArg param) pos) a = { a with diagnostics := ds } := by
    induction xs generalizing a with
    | nil => exact ⟨a.diagnostics, rfl⟩
    | cons x xs ih => exact ih (a.reportAt (.unknownMacroArg x.1) x.2)
  by_cases hquiet : K.Quiet
  · obtain ⟨ds, hds⟩ := hsilent xs a
    obtain ⟨ds', hds'⟩ := hsilent ys b
    rw [hds, hds']
    exact { h with held := held_none, reports := fun hloud => absurd hquiet hloud }
  · have hreports := hxy hquiet
    clear hxy
    induction hreports generalizing a b with
    | nil => exact h
    | cons hpos _ ih => exact ih (h.reportAt (by exact .of rfl rfl) hpos)

theorem defineMacro (name : Option String) (params : List String) (hbody : Rewritten K body body')
    (hclose : K.Line close close') : (defineMacro name params body close).Alike K π none
      (defineMacro (name.map K.case) (params.map K.case) body' close') a b := by
  have hrepeated := repeatedParam?_renamed K.upcase_case [] params
  have hunknown := hbody.unknownParams params
  have hreported := fun hloud => hbody.unknownParams_reported hloud params
  unfold SpectrumAsm.defineMacro
  dsimp only
  rw [hbody.beginsMacro]
  split
  · exact .throw_bind rfl h
  cases name with
  | none => exact .throw rfl h
  | some name =>
  rw [map_nil] at hrepeated
  rw [hrepeated]
  cases repeatedParam? [] params with
  | some param => exact .fail_bind (by exact .of rfl rfl) h
  | none =>
  refine .get_bind ?_
  rw [h.symbols.hasMacro, K.upcase_case]
  split
  · exact .fail_bind (by exact .of rfl rfl) h
  generalize unknownParams params body = unknown at hunknown hreported
  generalize unknownParams (params.map K.case) body' = unknown' at hunknown hreported
  cases unknown with
  | nil =>
    rw [hunknown.1 rfl]
    exact .modify (h.setSymbols (h.symbols.addMacro ⟨rfl, rfl, hbody.loosen, hclose.label⟩))
  | cons first rest =>
    cases unknown' with
    | nil => cases hunknown.2 rfl
    | cons first' rest' =>
      exact .modify (h.reportUnknown hreported)

end OnLine

/-! ## Labels of lines -/

/-- States before a line and before the line it was rewritten to, which may have the label that waits in the
first state. -/
inductive AtLine (K : Rewriting) (π : ScopeMap) (l m : SourceLine) (a b : Assembly) : Prop where
  | same (hline : K.Line l m) (h : OnLine K π none a b)
  | joined {label : SourceLine} (hjoins : K.Joins label l m) {name : String} {pos : Position}
    (hname : label.label = some name) (hwaits : a.hanging = some (name, pos)) (hnone : b.hanging = none)
    (h : OnLine K π none { a with hanging := none } b)

namespace AtLine

variable (h : AtLine K π l m a b)
include h

theorem stmt : m.stmt = l.stmt.map (renamed K.case) := by
  cases h with
  | same hline _ => exact hline.stmt
  | joined hjoins _ _ _ _ => exact hjoins.stmt_renamed

theorem filled : K.filled → l.Filled := by
  cases h with
  | same hline _ => exact hline.filled
  | joined hjoins _ _ _ _ => exact fun _ => hjoins.filled

theorem pos : K.exact → m.pos = l.pos := by
  cases h with
  | same hline _ => exact hline.pos.2
  | joined hjoins _ _ _ _ => exact fun he => absurd he hjoins.inexact

theorem setOpened (opened : Option StructInstance) : AtLine K π l m { a with opened } { b with opened } := by
  cases h with
  | same hline h => exact .same hline (h.setOpened opened)
  | joined hjoins hname hwaits hnone h => exact .joined hjoins hname hwaits hnone (h.setOpened opened)

theorem takeLabel : (b.takeLabel m).1 = (a.takeLabel l).1.map K.case ∧
    OnLine K π none (a.takeLabel l).2 (b.takeLabel m).2 := by
  unfold Assembly.takeLabel
  cases h with
  | same hline h =>
    rw [hline.label]
    cases l.label with
    | none =>
      refine ⟨?_, { h with hanging := .none, held := held_none }⟩
      match a.hanging, b.hanging, h.hanging with
      | _, _, .none => rfl
      | _, _, .some hxy => exact congrArg some hxy.1
    | some label => exact ⟨rfl, h⟩
  | joined hjoins hname hwaits hnone h =>
    obtain ⟨_, hname', hcase⟩ := hjoins.name
    obtain rfl := Option.some.inj (hname.symm.trans hname')
    rw [hjoins.unlabelled, hcase, hwaits]
    exact ⟨rfl, h⟩

theorem bindLineLabel : OnLine K π none (a.bindLineLabel l) (b.bindLineLabel m) := by
  unfold Assembly.bindLineLabel
  cases h with
  | same hline h =>
    rw [hline.label]
    cases l.label with
    | none => exact h.flushLabel
    | some label =>
      dsimp only [Option.map_some]
      rw [h.flushLabel.address]
      exact h.flushLabel.bindLabel (K.upcase_case label) _
  | @joined label hjoins name waiting hname hwaits hnone h =>
    obtain ⟨_, hname', hcase⟩ := hjoins.name
    obtain rfl := Option.some.inj (hname.symm.trans hname')
    have hbound := h.bindWaiting (K.upcase_case name) (p := waiting) (q := b.pos) fun he => absurd he hjoins.inexact
    have hsame : { b with hanging := none, pos := b.pos } = b := by rw [← hnone]
    rw [hsame] at hbound
    have hpos : { b.bindLabel (K.case name) b.address with pos := b.pos } = b.bindLabel (K.case name) b.address := by
      rw [← (Alike.bindLabel_keeps b (K.case name) b.address).2]
    rw [hpos] at hbound
    unfold flushLabel
    rw [hjoins.unlabelled, hcase, hwaits, hnone]
    exact hbound

end AtLine

/-! ## Single lines -/

section
variable (h : AtLine K π l m a b)
include h

theorem atInvocation_alike : OnLine K π none (a.atInvocation l) (b.atInvocation m) :=
  (h.setOpened none).bindLineLabel.recordLine h.pos

omit h in
theorem Stmt.map_renamed_operands {s : Stmt} (hs : s.hasParam = false) :
    s.operands.map (Operand.renamed K.case) = s.operands :=
  (map_congr_left (renamed_operands hs)).trans (map_id _)

theorem invoked?_alike : Option.Rel (fun x y => x.1.Alike K y.1 ∧ y.2 = x.2) (a.invoked? l) (b.invoked? m) := by
  unfold invoked?
  rw [h.stmt]
  cases l.stmt with
  | none => exact .none
  | some s =>
    cases s with
    | invoke name args =>
      have hparam := (Stmt.invoke name args).hasParam_renamed (f := K.case)
      have hmap := map_renamed_operands (K := K) (s := .invoke name args)
      dsimp only [Option.map_some, renamed, operands] at hparam hmap ⊢
      rw [hparam]
      split
      · exact .none
      · next hnone =>
        have hargs := hmap (Bool.eq_false_iff.2 hnone)
        exact rel_map ((atInvocation_alike h).symbols.findMacro? name) fun _ _ hd => ⟨hd, hargs⟩
    | _ => exact .none

omit h in
theorem invokeOther_alike (h : OnLine K π none a b) (pos pos' : Position) (name : String) (args : List Operand)
    (hinvoked : a.symbols.findMacro? name = none) :
    (invoke none pos name args).Alike K π none (invoke none pos' (K.case name) args) a b := by
  have hnone := h.symbols.findMacro? name
  refine .get_bind ?_
  dsimp only
  rw [hinvoked] at hnone ⊢
  generalize b.symbols.findMacro? (K.case name) = x at hnone
  cases hnone
  match a.symbols.findStruct? name, b.symbols.findStruct? (K.case name), h.symbols.findStruct? name with
  | _, _, .none => exact .fail (by exact .of rfl rfl) h
  | _, _, .some hd =>
    dsimp only
    rw [hd.name]
    split
    · exact (h.invokeStruct hd).lift
    · exact .throw rfl h

theorem paramFault_alike {s : Stmt} (hs : l.stmt = some s) (hparam : s.hasParam = true) :
    OnLine K π none (a.report (a.paramFault s)) (b.report (b.paramFault (s.renamed K.case))) := by
  cases h with
  | same hline h =>
    refine h.report ⟨?_, fun hf => ?_⟩
    · unfold paramFault
      rw [h.macroDepth]
      cases s <;> rfl
    · rw [hline.filled hf s hs] at hparam
      cases hparam
  | joined hjoins _ _ _ _ =>
    rw [hjoins.filled s hs] at hparam
    cases hparam

theorem runNamed_alike {p : Pragma} (hfilled : K.filled → ∀ e ∈ p.exprs, e.params = []) : OnLine K π none
    ((reporting (runPragma (a.takeLabel l).1 p)).run (a.takeLabel l).2.flushLabel).2
    ((reporting (runPragma (b.takeLabel m).1 (p.renamed K.case))).run (b.takeLabel m).2.flushLabel).2 := by
  obtain ⟨hlabel, htaken⟩ := h.takeLabel
  rw [hlabel]
  exact (reporting_alike (OnLine.runPragma htaken.flushLabel hfilled _)).2

/-- A line that invokes no macro does the same on both sides. -/
theorem walkSingle_alike (hinvoked : a.invoked? l = none) :
    OnLine K π none ((walkSingle none l).run a).2 ((walkSingle none m).run b).2 := by
  cases hs : l.stmt with
  | none =>
    have hbare : m.stmt = none := by rw [h.stmt, hs]; rfl
    cases h with
    | joined hjoins _ _ _ _ =>
      obtain ⟨s, hs', -⟩ := hjoins.stmt
      rw [hs] at hs'
      cases hs'
    | same hline h =>
      unfold walkSingle
      rw [hs, hbare, hline.label]
      cases l.label with
      | none => exact h
      | some label => exact { h.flushLabel with hanging := .some ⟨rfl, hline.pos.2⟩, held := held_none }
  | some s =>
    have hs' : m.stmt = some (s.renamed K.case) := by rw [h.stmt, hs]; rfl
    have hclosed : AtLine K π l m (if s.keepsInstance then a else { a with opened := none })
        (if s.keepsInstance then b else { b with opened := none }) := by
      split
      · exact h
      · exact h.setOpened none
    have hexprs (hf : K.filled) := (h.filled hf).exprs hs
    rw [run_walkSingle_stmt hs, run_walkSingle_stmt hs', s.keepsInstance_renamed, s.hasParam_renamed]
    cases hparam : s.hasParam with
    | true => exact paramFault_alike hclosed hs hparam
    | false =>
    have hoperands := Stmt.map_renamed_operands (K := K) hparam
    rw [if_neg Bool.false_ne_true, if_neg Bool.false_ne_true]
    cases s with
    | pragma p =>
      unfold runStmt
      dsimp only [Stmt.renamed]
      rw [p.setsLabel_renamed]
      cases p.setsLabel with
      | true =>
        exact runNamed_alike hclosed hexprs
      | false => exact (reporting_alike (hclosed.bindLineLabel.runPragma hexprs none)).2
    | op m operands =>
      have hcoded : ∀ o ∈ operands, o.SteadyIn (K.Coded none) := by
        intro o ho e he
        have hparams := (hasParam_eq_false.1 hparam).2 e (mem_filterMap.2 ⟨o, ho, he⟩)
        exact ⟨⟨hparams, fun hp => absurd rfl hp⟩, hparams, fun hp => absurd rfl hp⟩
      have hrun := (reporting_alike (OnLine.emitOperation (hclosed.bindLineLabel.recordLine h.pos) m hcoded)).2
      dsimp only [Stmt.renamed, Stmt.operands] at hoperands ⊢
      rw [hoperands]
      exact hrun
    | invoke name args =>
      unfold invoked? at hinvoked
      rw [hs] at hinvoked
      dsimp only at hinvoked
      rw [if_neg (by rw [hparam]; exact Bool.false_ne_true)] at hinvoked
      have hrun := (reporting_alike (invokeOther_alike (atInvocation_alike h) l.pos m.pos name args
        (Option.map_eq_none_iff.1 hinvoked))).2
      dsimp only [Stmt.renamed, Stmt.operands] at hoperands ⊢
      rw [hoperands]
      exact hrun
    | field name p => exact (reporting_alike (hclosed.bindLineLabel.overrideField hexprs name)).2
    | statement s => exact (reporting_alike (hclosed.bindLineLabel.runStatement s)).2
    | directive d =>
      cases hclosed with
      | same _ h => exact h
      | joined hjoins _ _ _ _ =>
        obtain ⟨s, hl, -, hbinds, -⟩ := hjoins.stmt
        rw [hs] at hl
        cases hl
        cases hbinds

end

theorem Assembly.bindLineLabel_idle (ha : a.hanging = none) (hl : l.label = none) : a.bindLineLabel l = a := by
  unfold bindLineLabel flushLabel
  rw [ha, hl]

/-- A line that only puts bytes into the program does so alike also in a pass that is written out. -/
theorem plain_alike {id : Nat} (hK : K.Unrolls) (h : OnLine K π (some id) a b) (hlm : l.Same m) (hl : l.Plain K.free) :
    OnLine K π (some id) ((walkSingle none l).run a).2 ((walkSingle none m).run b).2 := by
  obtain ⟨s, hs, hplain⟩ := hl.stmt
  have hopened := h.setOpened none
  have hkeeps : s.keepsInstance = false := by
    rcases hplain.emits with ⟨m, operands, rfl⟩ | ⟨p, rfl, -⟩ <;> rfl
  -- no label waits in a pass, and the line has none
  have hhanging : a.hanging = none := (h.held rfl).hanging
  have hhanging' : b.hanging = none := by
    have hnone := h.hanging
    rw [hhanging] at hnone
    generalize b.hanging = y at hnone
    cases hnone
    rfl
  rw [run_walkSingle_stmt hs, run_walkSingle_stmt (hlm.stmt.trans hs), hkeeps, if_neg Bool.false_ne_true,
    if_neg Bool.false_ne_true]
  cases hparam : s.hasParam with
  | true =>
    refine hopened.report ⟨?_, fun hf => absurd hK.quiet (K.loud hf)⟩
    unfold paramFault
    rw [hopened.macroDepth]
  | false =>
  rw [if_neg Bool.false_ne_true, if_neg Bool.false_ne_true]
  have hbound : bindLineLabel { a with opened := none } l = { a with opened := none } :=
    bindLineLabel_idle hhanging hl.label
  have hbound' : bindLineLabel { b with opened := none } m = { b with opened := none } :=
    bindLineLabel_idle hhanging' (hlm.label.trans hl.label)
  rcases hplain.emits with ⟨mnemonic, operands, rfl⟩ | ⟨p, rfl, hdata⟩
  · have hcoded : ∀ o ∈ operands, o.SteadyIn (K.Coded (some id)) := by
      intro o ho e he
      have hparams := (hasParam_eq_false.1 hparam).2 e (mem_filterMap.2 ⟨o, ho, he⟩)
      have hsteady : e.Steady K.free := by
        have ho := hplain.operands o ho
        cases o with
        | param name => cases he
        | _ => exact ho e he
      exact ⟨⟨hparams, fun _ => hsteady⟩, hparams, fun _ => hsteady⟩
    show OnLine K π (some id)
      ((reporting (emitOperation mnemonic operands)).run
        ((bindLineLabel { a with opened := none } l).recordLine l.pos)).2
      ((reporting (emitOperation mnemonic operands)).run
        ((bindLineLabel { b with opened := none } m).recordLine m.pos)).2
    rw [hbound, hbound']
    refine (reporting_alike (OnLine.emitOperation (hopened.recordLine fun he => ?_) mnemonic hcoded)).2
    exact absurd he hK.inexact
  · have hsets : p.setsLabel = false := by
      cases p <;> first | rfl | cases hdata
    have hsame : p.renamed K.case = p := by
      rw [hK.case]
      exact pragma.inj (renamed_id (.pragma p))
    have hexprs (e : Expr) (he : e ∈ p.exprs) : K.Exprs (some id) e (e.renamed K.case) :=
      ⟨Expr.folded_renamed K.upcase_case e, fun _ => hplain.exprs e he, fun hf => absurd hK.quiet (K.loud hf)⟩
    have hrun := (reporting_alike (OnLine.data hopened hdata hexprs none none)).2
    rw [hsame, ← hbound, ← hbound'] at hrun
    unfold runStmt
    dsimp only
    rw [hsets]
    exact hrun

end SpectrumAsm
