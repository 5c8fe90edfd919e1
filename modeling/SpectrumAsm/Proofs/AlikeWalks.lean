/-
Calls in states that are alike.

What alike calls do up to the first further call is alike: either both are over, or both make calls that are
alike again and go on alike behind them (`CallAlike.next`). The exceptions are a loop that is written out and a
label that is put on the next line.
-/
import SpectrumAsm.Proofs.AlikeLines

namespace SpectrumAsm

open Assembly SourceLine Statement

variable {K : Rewriting} {π π' : ScopeMap} {a b : Assembly} {l m : SourceLine} {σ : Type}
  {id id' : Option Nat} {x y : Call} {body body' ls ms : List SourceLine} {d : MacroDef} {args : List Operand}

/-! ## Calls that are alike -/

/-- Loops of the same kind. The variable of a counting loop lives in scopes that stand for each other. -/
inductive LoopKind.Alike (K : Rewriting) (π : ScopeMap) : {σ : Type} → LoopKind σ → LoopKind σ → Prop where
  | counted (count : Int64) : LoopKind.Alike K π (.counted count) (.counted count)
  | whileTrue {e : Expr} (hfilled : K.filled → e.params = []) :
    LoopKind.Alike K π (.whileTrue e) (.whileTrue (e.renamed K.case))
  | untilTrue {e : Expr} (hfilled : K.filled → e.params = []) :
    LoopKind.Alike K π (.untilTrue e) (.untilTrue (e.renamed K.case))
  | counting {i j : Nat} (hij : π i = some (.scope j)) (key : String) (last step : Value) :
    LoopKind.Alike K π (.counting i key last step) (.counting j key last step)

/-- Loops alike. -/
structure LoopCall.Alike (K : Rewriting) (π : ScopeMap) (c d : LoopCall σ) : Prop where
  kind : c.kind.Alike K π d.kind
  body : Rewritten K c.body d.body
  close : K.Line c.close d.close
  start : K.SamePos c.start d.start
  faults : ¬K.Quiet → d.faults = c.faults

theorem LoopCall.Alike.extend {c d : LoopCall σ} (h : c.Alike K π d) (hπ : π.Extends π') : c.Alike K π' d := by
  obtain ⟨kind, body, close, start, faults⟩ := c
  obtain ⟨kind', body', close', start', faults'⟩ := d
  refine { h with kind := ?_ }
  cases h.kind with
  | counted count => exact .counted count
  | whileTrue hfilled => exact .whileTrue hfilled
  | untilTrue hfilled => exact .untilTrue hfilled
  | counting hij key last step => exact .counting (hπ _ _ hij) key last step

/-- Calls alike, each with the state it is made in. -/
inductive CallAlike (K : Rewriting) (π : ScopeMap) : Call → Assembly → Call → Assembly → Prop where
  | nothing {a b : Assembly} (h : a.Alike K π none False b) : CallAlike K π .nothing a .nothing b
  | lines {ls ms : List SourceLine} (hlines : Rewritten K ls ms) {a b : Assembly} (h : a.Alike K π none False b) :
    CallAlike K π (.lines ls) a (.lines ms) b
  | line {l m : SourceLine} {a b : Assembly} (h : AtLine K π l m a b) (hargs : l.PassesSteady K.free) :
    CallAlike K π (.line l) a (.line m) b
  | expand {d d' : MacroDef} (hd : d.Alike K d') {args : List Operand}
    (hsteady : K.free → ∀ o ∈ args, o.Steady K.free) {name : String} (hargs : (Stmt.invoke name args).hasParam = false)
    {pos pos' : Position} (hpos : K.exact → pos' = pos) {a b : Assembly} (h : a.Alike K π none False b) :
    CallAlike K π (.expand d args pos) a (.expand d' args pos') b
  | block {l m : SourceLine} {a b : Assembly} (h : AtLine K π l m a b) {s : Statement}
    (hs : l.stmt = some (.statement s)) {body body' : List SourceLine} (hbody : Rewritten K body body')
    {close close' : SourceLine} (hclose : K.Line close close') :
    CallAlike K π (.block l s body close) a (.block m (s.renamed K.case) body' close') b
  | passes {σ : Type} {c d : LoopCall σ} (hloop : c.Alike K π d) (n : Nat) (carried : σ) {a b : Assembly}
    (h : a.Alike K π none False b) : CallAlike K π (.passes c n carried) a (.passes d n carried) b
  /-- a label waits for the next line, which has it on the other side -/
  | labelled {label l m : SourceLine} {ls ms : List SourceLine} (hjoins : K.Joins label l m)
    (hargs : l.PassesSteady K.free) (hrest : Rewritten K ls ms) {name : String} {pos : Position}
    (hname : label.label = some name) {a b : Assembly} (hwaits : a.hanging = some (name, pos))
    (hnone : b.hanging = none) (hgoes : a.isInterrupted = false)
    (h : Alike K π none False { a with hanging := none } b) :
    CallAlike K π (.lines (l :: ls)) a (.lines (m :: ms)) b

/-- Calls that go on alike: both are over, or both make a call and go on alike behind it, if nothing bad is
reported. -/
inductive NextAlike (K : Rewriting) (π : ScopeMap) : Next → Next → Prop where
  | done {π' : ScopeMap} {a b : Assembly} (hπ : π.Extends π') (h : a.Alike K π' none False b) :
    NextAlike K π (.done a) (.done b)
  | call {π' : ScopeMap} {inner inner' : Call} {a b : Assembly} {resume resume' : Assembly → Call × Assembly}
    (hπ : π.Extends π') (hcall : CallAlike K π' inner a inner' b)
    (hresume : ∀ {τ : ScopeMap} {c d : Assembly}, π'.Extends τ → c.Alike K τ none False d →
      (∀ x ∈ (resume c).2.diagnostics, ¬K.bad x) → (K.Quiet → (resume' d).2.diagnostics = #[]) →
      CallAlike K τ (resume c).1 (resume c).2 (resume' d).1 (resume' d).2) :
    NextAlike K π (.call inner a resume) (.call inner' b resume')

namespace NextAlike

theorem after {x y : Next} (h : NextAlike K π' x y) (hπ : π.Extends π') : NextAlike K π x y := by
  cases h with
  | done hπ' h => exact .done (hπ.trans hπ') h
  | call hπ' hcall hresume => exact .call (hπ.trans hπ') hcall hresume

theorem ended {line : Prop} (h : a.Alike K π none line b) : NextAlike K π (.done a) (.done b) :=
    .done (.refl π) h.offLine

theorem last (hcall : CallAlike K π x a y b) : NextAlike K π (.last x a) (.last y b) :=
  .call (.refl π) hcall fun _ h _ _ => .nothing h

theorem within {leave leave' : Assembly → Assembly} (hπ : π.Extends π') (hcall : CallAlike K π' x a y b)
    (hleave : ∀ {τ : ScopeMap} {c d : Assembly}, π'.Extends τ → c.Alike K τ none False d →
      (leave c).Alike K τ none False (leave' d)) :
    NextAlike K π (.within x a leave) (.within y b leave') :=
  .call hπ hcall fun hτ h _ _ => .nothing (hleave hτ h)

end NextAlike

/-! ## Choices -/

/-- Whether a statement heads the last section of a choice. -/
def Statement.isElse : Statement → Bool
  | .otherwise => true
  | _ => false

theorem Statement.isElse_renamed (f : String → String) (s : Statement) : (s.renamed f).isElse = s.isElse := by
  cases s <;> rfl

theorem Section.title_eq (s : Section) : s.title = if s.header.isElse then "ELSE" else "ELIF" := by
  obtain ⟨line, header, body⟩ := s
  cases header <;> rfl

theorem checkSections_cons (before : Statement) (s : Section) (ss : List Section) :
    checkSections before (s :: ss) = (do
      modify fun a => { a with pos := s.line.pos }
      if before.isElse then report (.sectionAfterElse s.title)
      if s.line.label.isSome then report (.sectionLabel s.title)
      return !before.isElse && !s.line.label.isSome && (← checkSections s.header ss)) := by
  cases before <;> rfl

def LinesChosen (K : Rewriting) (π : ScopeMap) (x y : Option (List SourceLine)) (a b : Assembly) : Prop :=
  Option.Rel (Rewritten K) x y ∧ OnLine K π none a b

section
variable (h : OnLine K π none a b) {ss ss' : List Section} (hss : List.Forall₂ (Section.Alike K) ss ss')
include h

section
include hss

theorem checkSections_alike (before : Statement) :
    (checkSections before ss).Alike K π none (checkSections (before.renamed K.case) ss') a b := by
  induction hss generalizing before a b with
  | nil => exact ⟨rfl, h⟩
  | @cons s s' ss ss' hs _ ih =>
    have hmoved : OnLine K π none { a with pos := s.line.pos } { b with pos := s'.line.pos } := h.setPos hs.line.pos
    have hrest (late labelled : Bool) {a b : Assembly} (h : OnLine K π none a b) : Walk.Alike K π none
        (do return !late && !labelled && (← checkSections s.header ss))
        (do return !late && !labelled && (← checkSections s'.header ss')) a b := by
      rw [hs.header]
      exact (ih h s.header).agree_bind fun _ _ _ h => ⟨rfl, h⟩
    rw [checkSections_cons, checkSections_cons, s.title_eq, s'.title_eq, hs.header, isElse_renamed,
      isElse_renamed, hs.line.label, Option.isSome_map, ← hs.header]
    refine .modify_bind ?_
    cases before.isElse <;> cases s.line.label.isSome
    · exact hrest false false hmoved
    · exact hrest false true (hmoved.reportSame rfl)
    · exact hrest true false (hmoved.reportSame rfl)
    · exact hrest true true ((hmoved.reportSame rfl).reportSame rfl)

end

variable {s : Statement}

theorem isChosen_alike (hfilled : K.filled → ∀ e ∈ s.exprs, e.params = []) :
    (isChosen s).Alike K π none (isChosen (s.renamed K.case)) a b := by
  have hexprs (e : Expr) (he : e ∈ s.exprs) : K.Exprs none e (e.renamed K.case) :=
    Rewriting.exprs_renamed fun hK => hfilled hK e he
  cases s with
  | ifTrue e | elseIf e => exact h.evalTruth (hexprs e List.mem_cons_self)
  | ifUsed ref | ifUnused ref =>
    refine .get_bind ?_
    rw [h.symbols.isUsed]
    exact .pure ⟨rfl, h⟩
  | _ => exact .pure ⟨rfl, h⟩

theorem pickIf_alike {header : Statement} (hfilled : K.filled → ∀ e ∈ header.exprs, e.params = [])
    (hlines : Rewritten K lines lines') {later later' : Walk (Option (List SourceLine))}
    (hlater : ∀ {a b : Assembly}, OnLine K π none a b → later.Sim (LinesChosen K π) later' a b) :
    (pickIf header lines later).Sim (LinesChosen K π) (pickIf (header.renamed K.case) lines' later') a b := by
  refine .outcome_bind (isChosen_alike h hfilled) (fun f g a b hfault h => ⟨.none, h.report hfault⟩)
    fun chosen a b h => ?_
  cases chosen with
  | true => exact ⟨.some hlines, h⟩
  | false => exact hlater h

theorem pickSection_alike (hss : List.Forall₂ (Section.Alike K) ss ss') :
    (pickSection ss).Sim (LinesChosen K π) (pickSection ss') a b := by
  induction hss generalizing a b with
  | nil => exact ⟨.none, h⟩
  | @cons s s' ss ss' hs _ ih =>
    unfold pickSection
    rw [hs.header]
    refine .modify_bind (pickIf_alike (h.setPos hs.line.pos) ?_ hs.body fun h => ih h)
    exact fun hK => (Stmt.hasParam_eq_false.1 (hs.filled hK)).2

section
variable {header : Statement} (hfilled : K.filled → ∀ e ∈ header.exprs, e.params = [])
  (hbody : Rewritten K body body')
include hfilled hbody

theorem pickLines_alike :
    (pickLines header body).Sim (LinesChosen K π) (pickLines (header.renamed K.case) body') a b := by
  obtain ⟨hfirst, hss⟩ := hbody.cutSections 0
  unfold pickLines
  generalize cutSections 0 body = x at hfirst hss
  generalize cutSections 0 body' = y at hfirst hss
  obtain ⟨first, ss⟩ := x
  obtain ⟨first', ss'⟩ := y
  refine (checkSections_alike h hss header).agree_bind fun fits a b h => ?_
  cases fits with
  | false => exact ⟨.none, h⟩
  | true => exact pickIf_alike h hfilled hfirst fun h => pickSection_alike h hss

theorem nextChoice_alike : NextAlike K π (nextChoice header body a) (nextChoice (header.renamed K.case) body' b) := by
  obtain ⟨hlines, hstate⟩ := pickLines_alike h hfilled hbody
  unfold nextChoice
  generalize (pickLines header body).run a = x at hlines hstate
  generalize (pickLines (header.renamed K.case) body').run b = y at hlines hstate
  obtain ⟨lines, a'⟩ := x
  obtain ⟨lines', b'⟩ := y
  cases hlines with
  | none => exact .ended hstate
  | some hlines => exact .last (.lines hlines hstate.offLine)

end

end

/-! ## Loops -/

theorem combine_filled (op : BinaryOp) (v w : Value) (fault : Fault)
    (h : (Value.binary op v w).mapError Fault.ofExpr = .error fault) : fault.isParam = false := by
  cases hvalue : Value.binary op v w with
  | error cause =>
    rw [hvalue] at h
    cases h
    exact Value.binary_filled hvalue
  | ok v =>
    rw [hvalue] at h
    cases h

section
variable (h : OnLine K π none a b)
include h

theorem countTo_alike {i j : Nat} (hij : π i = some (.scope j)) (key : String) (last step v : Value) :
    (countTo i key last step v).Alike K π none (countTo j key last step v) a b := by
  refine .ofExcept_bind _ (combine_filled _ v last) h fun past _ => ?_
  cases past.truth? == some true with
  | true => exact .pure ⟨rfl, h⟩
  | false => exact .ok ⟨rfl, h.setSymbols (h.symbols.assign (.scope hij) key v)⟩

variable {kind kind' : LoopKind σ}

theorem proceed_alike (hkind : kind.Alike K π kind') (pass : Int64) (v : σ) :
    (kind.rule.proceed pass v).Alike K π none (kind'.rule.proceed pass v) a b := by
  cases hkind with
  | counted count => exact .pure ⟨rfl, h⟩
  | whileTrue hfilled =>
    exact (h.evalTruth (Rewriting.exprs_renamed hfilled)).agree_bind fun _ _ _ h => .pure ⟨rfl, h⟩
  | untilTrue hfilled => exact .pure ⟨rfl, h⟩
  | @counting i j hij key last step =>
    unfold LoopKind.rule countingRule
    dsimp only
    split
    · exact .ofExcept_bind _ (combine_filled _ v step) h fun v _ => countTo_alike h hij key last step v
    · exact countTo_alike h hij key last step v

theorem finished_alike (hkind : kind.Alike K π kind') :
    kind.rule.finished.Alike K π none kind'.rule.finished a b := by
  cases hkind with
  | untilTrue hfilled => exact h.evalTruth (Rewriting.exprs_renamed hfilled)
  | _ => exact .pure ⟨rfl, h⟩

end

theorem endPass_alike (h : a.Alike K π none False b) {close close' : SourceLine} (hclose : K.Line close close')
    {finished finished' : Step Bool}
    (hfinished : ∀ {a b : Assembly}, OnLine K π none a b → finished.Alike K π none finished' a b)
    (hid : ScopeRel π id id') :
    (endPass close finished id).Sim (Agreeing (Alike K π none False)) (endPass close' finished' id') a b := by
  have hended := h.bindEndLabel close.label hclose.pos.2
  unfold endPass closePass
  rw [hclose.label]
  refine Walk.Sim.agree_bind (L := Alike K π none False) ⟨rfl, ?_⟩ fun _ a b h => .get_bind ?_
  · cases hid with
    | none => exact hended
    | some hij => exact hended.resolveScope hij
  rw [h.symbols.topScope_exit]
  dsimp only
  split
  · exact ⟨rfl, h.closeScope⟩
  · refine Walk.Sim.agree_bind ⟨rfl, h.moveTo hclose.pos⟩ fun _ a b h => ?_
    exact Walk.Sim.agree_bind (.reportingOr true (hfinished h) fun _ _ _ _ hfault h => h.report hfault)
      fun _ _ _ h => ⟨rfl, h.offLine.closeScope⟩

theorem Rewriting.Quiet.no_reports (hK : K.Quiet) {ds : Array Diagnostic} (h : ∀ x ∈ ds, ¬K.bad x) : ds = #[] :=
  Array.eq_empty_iff_forall_not_mem.2 fun x hx => h x hx (hK x)

theorem LoopCall.resume_quiet {loop : LoopCall σ} {n : Nat} {carried : σ}
    (h : (loop.resume n carried id a).2.diagnostics = #[]) :
    (loop.frame fun _ => return ()).isOverLimit ((endPass loop.close loop.kind.rule.finished id).run a).2 = false := by
  unfold LoopCall.resume at h
  generalize (endPass loop.close loop.kind.rule.finished id).run a = x at h ⊢
  obtain ⟨done, b⟩ := x
  dsimp only at h ⊢
  split at h
  · simp [Assembly.report, reportAt] at h
  · next hover => exact eq_false_of_ne_true hover

section
variable {loop loop' : LoopCall σ} (hloop : loop.Alike K π loop') (n : Nat) (carried : σ)
  (h : a.Alike K π none False b)
include hloop h

theorem decide_alike : ∃ π', π.Extends π' ∧ (loop'.decide n carried b).1 = (loop.decide n carried a).1 ∧
      OnLine K π' none (loop.decide n carried a).2 (loop'.decide n carried b).2 := by
  have hextends := ScopeMap.Extends.update h.symbols.fresh (.scope b.symbols.nextScope)
  have hopen := (h.enterScope .pass (Int64.ofNat (n + 1))).moveTo hloop.start
  have hdecided : Walk.Sim _ _ _ _ _ := .reportingOr none
    (proceed_alike hopen (hloop.extend hextends).kind (Int64.ofNat (n + 1)) carried)
    fun _ _ _ _ hfault h => h.report hfault
  exact ⟨_, hextends, hdecided⟩

theorem isOverLimit_alike (hloud : ¬K.Quiet) (walk : LineWalker) :
    (loop'.frame walk).isOverLimit b = (loop.frame walk).isOverLimit a := by
  unfold LoopFrame.isOverLimit LoopCall.frame
  rw [h.setup, h.size_diagnostics hloud, hloop.faults hloud]

theorem resume_alike (hid : ScopeRel π id id') (hgood : ∀ x ∈ (loop.resume n carried id a).2.diagnostics, ¬K.bad x)
    (hquiet : K.Quiet → (loop'.resume n carried id' b).2.diagnostics = #[]) :
    CallAlike K π (loop.resume n carried id a).1 (loop.resume n carried id a).2 (loop'.resume n carried id' b).1
      (loop'.resume n carried id' b).2 := by
  have hended := endPass_alike h hloop.close (fun h => finished_alike h hloop.kind) hid
  have hover : (loop'.frame fun _ => return ()).isOverLimit
        ((endPass loop'.close loop'.kind.rule.finished id').run b).2 =
      (loop.frame fun _ => return ()).isOverLimit ((endPass loop.close loop.kind.rule.finished id).run a).2 := by
    by_cases hK : K.Quiet
    · rw [LoopCall.resume_quiet (hK.no_reports hgood), LoopCall.resume_quiet (hquiet hK)]
    · exact isOverLimit_alike hloop hended.2 hK _
  unfold LoopCall.resume
  obtain ⟨done, a', b', ha, hb, hstate⟩ := exists_answer hended
  rw [ha, hb] at hover ⊢
  dsimp only at hover ⊢
  rw [hover]
  split
  · exact .nothing ((hstate.setPos hloop.start).reportSame rfl)
  split
  · exact .nothing hstate
  · exact .passes hloop (n + 1) carried hstate

theorem passes_next_alike : NextAlike K π (loop.next n carried a) (loop'.next n carried b) := by
  obtain ⟨π', hextends, hdecided⟩ := decide_alike hloop n carried h
  obtain ⟨outcome, a', b', ha, hb, hstate⟩ := exists_answer hdecided
  unfold LoopCall.next
  rw [ha, hb]
  cases outcome with
  | none => exact .done hextends hstate.closeScope.offLine
  | some v =>
    dsimp only
    rw [hstate.setup]
    split
    · exact .done hextends (hstate.closeScope.reportSame rfl).offLine
    · refine .call hextends (.lines hloop.body hstate.offLine) fun hτ h hgood hquiet => ?_
      exact resume_alike (hloop.extend (hextends.trans hτ)) n v h (hτ.scopeRel hstate.symbols.top) hgood hquiet

end

/-! ## Blocks -/

theorem Assembly.Alike.openedScope {line : Prop} (h : a.Alike K π none line b) (kind : ScopeKind) :
    ∃ π', π.Extends π' ∧ π' a.symbols.nextScope = some (.scope b.symbols.nextScope) ∧
      (a.openScope kind).Alike K π' none line (b.openScope kind) :=
  ⟨_, .update h.symbols.fresh _, Function.update_self .., h.openScope kind⟩

section
variable (hbody : Rewritten K body body') {close close' : SourceLine} (hclose : K.Line close close')
include hbody hclose

section
variable (h : OnLine K π none a b)
include h

theorem nextLoop_alike (hkind : kind.Alike K π kind') (first : σ)
    {leave : Assembly → Assembly}
    (hleave : ∀ {τ : ScopeMap} {c d : Assembly}, c.Alike K τ none False d → (leave c).Alike K τ none False (leave d)) :
    NextAlike K π (nextLoop kind first body close a leave) (nextLoop kind' first body' close' b leave) :=
  .within (.refl π) (.passes ⟨hkind, hbody, hclose, h.samePos trivial, h.size_diagnostics⟩ 0 first h.offLine)
    fun _ h => hleave h

theorem nextFor_alike (var : String) {first last : Expr} {step : Option Expr}
    (hfilled : K.filled → ∀ e ∈ (forEach var first last step).exprs, e.params = []) :
    NextAlike K π (nextFor var first last step body close a)
      (nextFor (K.case var) (first.renamed K.case) (last.renamed K.case) (step.map (Expr.renamed K.case)) body' close'
        b) := by
  have hexprs (e : Expr) (he : e ∈ (forEach var first last step).exprs) :
      K.Exprs none e (e.renamed K.case) := Rewriting.exprs_renamed fun hK => hfilled hK e he
  have hstep : Option.Rel (K.Exprs none) step (step.map (Expr.renamed K.case)) := by
    cases step with
    | none => exact .none
    | some e => exact .some (hexprs e (by simp [exprs]))
  have hbounds := h.evalBounds (hexprs first (by simp [exprs]))
    (hexprs last (by simp [exprs])) hstep
  unfold nextFor
  rw [h.symbols.isVisible, K.upcase_case]
  split
  · exact .ended (h.report (by exact .of rfl rfl))
  unfold Step.Alike Step.Sim at hbounds
  generalize (evalBounds first last step).run.run a = x at hbounds
  generalize (evalBounds (first.renamed K.case) (last.renamed K.case) (step.map (Expr.renamed K.case))).run.run b = y
    at hbounds
  cases hbounds with
  | error hfault hstate => exact .ended (hstate.report hfault)
  | @ok _ bounds a' b' hagree =>
    obtain ⟨rfl, hstate⟩ := hagree
    obtain ⟨first, last, step⟩ := bounds
    obtain ⟨π', hextends, hid, hopen⟩ := hstate.openedScope .loop
    have hloop (key : String) (v : Value) : OnLine K π' none (a'.openLoop key v) (b'.openLoop key v) :=
      hopen.setSymbols (hopen.symbols.addSymbol (.scope hid) ⟨rfl, rfl, rfl, hstate.pos⟩)
    exact (nextLoop_alike hbody hclose (hloop _ _) (.counting hid _ _ _) _ fun h => h.closeScope).after hextends

theorem nextModule_alike (name : Option String) :
    NextAlike K π (nextModule name body close a) (nextModule (name.map K.case) body' close' b) := by
  unfold nextModule
  cases name with
  | none => exact .ended (h.reportSame rfl)
  | some name =>
    dsimp only [Option.map_some]
    rcases h.symbols.enterModule name with ⟨fault, fault', ha, hb, hfault⟩ | ⟨t, u, ha, hb, htu⟩
    · rw [ha, hb]
      exact .ended (h.report hfault)
    · rw [ha, hb, hclose.label]
      refine .within (.refl π) (.lines hbody (h.setSymbols htu).offLine) fun _ h => ?_
      have hended := h.bindEndLabel close.label hclose.pos.2
      exact hended.setSymbols hended.symbols.leaveModule

theorem nextLabelled_alike (hfilled : K.filled → ∀ e ∈ s.exprs, e.params = []) :
    NextAlike K π (nextLabelled s body close a) (nextLabelled (s.renamed K.case) body' close' b) := by
  cases s with
  | ifTrue e | ifUsed ref | ifUnused ref => exact nextChoice_alike h hfilled hbody
  | loop count =>
    have hcount := h.evalInt (Rewriting.exprs_renamed fun hK => hfilled hK count List.mem_cons_self)
    unfold Step.Alike Step.Sim at hcount
    unfold nextLabelled renamed mapExprs
    dsimp only
    generalize (evalInt count).run.run a = x at hcount
    generalize (evalInt (count.renamed K.case)).run.run b = y at hcount
    cases hcount with
    | error hfault hstate => exact .ended (hstate.report hfault)
    | @ok _ count a' b' hagree =>
      obtain ⟨rfl, hstate⟩ := hagree
      dsimp only
      rw [hstate.setup]
      split
      · exact .ended (hstate.reportSame rfl)
      · exact nextLoop_alike hbody hclose hstate (.counted count) () id
  | whileTrue e =>
    exact nextLoop_alike hbody hclose h (.whileTrue fun hK => hfilled hK e List.mem_cons_self) () id
  | repeatBody =>
    unfold nextLabelled renamed mapExprs
    rw [hclose.stmt]
    cases hend : close.stmt with
    | none => exact .ended h
    | some s =>
      cases s with
      | statement s =>
        cases s with
        | untilTrue e =>
          have hfilled (hK : K.filled) : e.params = [] := (hclose.filled hK).exprs hend e List.mem_cons_self
          exact nextLoop_alike hbody hclose h (.untilTrue hfilled) () id
        | _ => exact .ended h
      | _ => exact .ended h
  | forEach var first last step => exact nextFor_alike hbody hclose h var hfilled
  | proc =>
    obtain ⟨π', hextends, hid, hopen⟩ := h.openedScope .proc
    unfold nextLabelled renamed mapExprs
    rw [hclose.label]
    refine .within hextends (.lines hbody hopen.offLine) fun hτ h => ?_
    exact ((h.bindEndLabel close.label hclose.pos.2).resolveScope (hτ _ _ hid)).closeScope
  | _ => exact .ended h

end

/-- Blocks do the same up to the first call they make, if nothing bad is reported before. -/
theorem nextBlock_alike (h : AtLine K π l m a b) (hs : l.stmt = some (.statement s))
    (hgood : ∀ x ∈ a.diagnostics, ¬K.bad x)
    (hdone : ∀ c, nextBlock l s body close a = .done c → ∀ x ∈ c.diagnostics, ¬K.bad x) :
    NextAlike K π (nextBlock l s body close a) (nextBlock m (s.renamed K.case) body' close' b) := by
  obtain ⟨hlabel, htaken⟩ := h.takeLabel
  have hfilled (hK : K.filled) : ∀ e ∈ s.exprs, e.params = [] := (h.filled hK).exprs hs
  cases s with
  | macroDef params =>
    unfold nextBlock renamed
    dsimp only
    rw [hlabel]
    exact .ended (reporting_alike (htaken.defineMacro _ params hbody hclose)).2
  | structDef =>
    have hkept : (a.takeLabel l).2.diagnostics = a.diagnostics := by
      unfold takeLabel
      split <;> rfl
    have hfits (hK : K.Quiet) : ∀ l ∈ body, fitsStruct l = true :=
      fits_of_defineStruct ((hK.no_reports (hdone _ rfl)).trans (hkept.trans (hK.no_reports hgood)).symm)
    unfold nextBlock renamed mapExprs
    dsimp only
    rw [hlabel]
    exact .ended (reporting_alike (htaken.defineStruct _ (hbody.bodies hfits) hclose)).2
  | moduleDef arg =>
    unfold nextBlock renamed
    dsimp only
    cases h with
    | same hline h =>
      have hnamed : m.label.or (arg.map K.case) = (l.label.or arg).map K.case := by
        rw [hline.label]
        cases l.label <;> rfl
      rw [hnamed]
      cases l.label.or arg with
      | some name => exact nextModule_alike hbody hclose h.flushLabel (some name)
      | none =>
        dsimp only [Option.map_none]
        rw [hlabel]
        exact nextModule_alike hbody hclose htaken.flushLabel _
    | joined hjoins hname hwaits hnone h =>
      -- only a module without a name of its own takes a label
      obtain ⟨_, hs', -, hbinds, -⟩ := hjoins.stmt
      cases hs.symm.trans hs'
      obtain rfl := Option.isNone_iff_eq_none.1 hbinds
      obtain ⟨name', -, hm⟩ := hjoins.name
      have htakes : b.takeLabel m = (some (K.case name'), b) := by
        unfold takeLabel
        rw [hm]
      have hmodule := nextModule_alike hbody hclose htaken.flushLabel (a.takeLabel l).1
      rw [← hlabel, htakes] at hmodule
      rw [hjoins.unlabelled, hm]
      exact hmodule
  | _ =>
    exact nextLabelled_alike hbody hclose h.bindLineLabel hfilled

end

/-! ## Lines and expansions -/

theorem nextExpansion_alike (h : a.Alike K π none False b) {d' : MacroDef} (hd : d.Alike K d')
    (hsteady : K.free → ∀ o ∈ args, o.Steady K.free) {name : String}
    (hargs : (Stmt.invoke name args).hasParam = false) {pos pos' : Position} (hpos : K.exact → pos' = pos) :
    NextAlike K π (nextExpansion d args pos a) (nextExpansion d' args pos' b) := by
  obtain ⟨π', hextends, hid, hopen⟩ := h.openedScope .expansion
  unfold nextExpansion
  dsimp only
  rw [hd.params, hd.name, h.setup, h.macroDepth, List.length_map]
  split
  · exact .ended (h.reportSame rfl)
  split
  · exact .ended (h.reportSame rfl)
  · have hlines : Rewritten K (Bindings.substituteLines ⟨d.params, args⟩ d.body)
        (Bindings.substituteLines ⟨d.params.map K.case, args⟩ d'.body) := hd.body.substitute hargs hsteady
    refine .within hextends (.lines hlines ?_) fun hτ h => ?_
    · exact { hopen with macroDepth := congrArg (· + 1) h.macroDepth, held := held_none }
    · have hclosed := ((h.bindEndLabel d.endLabel hpos).resolveScope (hτ _ _ hid)).closeScope
      unfold closeExpansion
      rw [hd.endLabel]
      exact { hclosed with macroDepth := congrArg (· - 1) hclosed.macroDepth, held := held_none }

theorem Assembly.stmt_of_invoked? (h : a.invoked? l = some (d, args)) :
    ∃ name, l.stmt = some (.invoke name args) ∧ (Stmt.invoke name args).hasParam = false := by
  unfold invoked? at h
  split at h
  · next name args' hs =>
    split at h
    · cases h
    · next hparam =>
      obtain ⟨_, -, hpair⟩ := Option.map_eq_some_iff.1 h
      cases hpair
      exact ⟨name, hs, eq_false_of_ne_true hparam⟩
  · cases h

theorem line_next_alike (h : AtLine K π l m a b) (hargs : l.PassesSteady K.free) :
    NextAlike K π ((Call.line l).next a) ((Call.line m).next b) := by
  have hinvoked := invoked?_alike h
  unfold Call.next
  dsimp only
  cases ha : a.invoked? l with
  | none =>
    rw [ha] at hinvoked
    generalize b.invoked? m = y at hinvoked
    cases hinvoked
    exact .ended (walkSingle_alike h ha)
  | some x =>
    rw [ha] at hinvoked
    generalize b.invoked? m = y at hinvoked
    cases hinvoked with
    | @some _ y hxy =>
      obtain ⟨d, args⟩ := x
      obtain ⟨d', _⟩ := y
      obtain ⟨hd, rfl⟩ := hxy
      obtain ⟨name, hs, hparam⟩ := stmt_of_invoked? ha
      exact .last (.expand hd (fun hfree => hargs hfree name _ hs) hparam h.pos (atInvocation_alike h).offLine)

theorem AtLine.isInterrupted (h : AtLine K π l m a b) : b.isInterrupted = a.isInterrupted := by
  cases h with
  | same hline h | joined hjoins hname hwaits hnone h => exact h.isInterrupted

theorem SourceLine.stmt_of_role {kind : Block} (h : l.role = .opens kind s) : l.stmt = some (.statement s) := by
  unfold role at h
  split at h
  · next hs =>
    rw [hs]
    repeat' split at h
    all_goals cases h
    rfl
  · cases h

theorem SourceLine.role_ne_orphan {s : Stmt} (hs : l.stmt = some s) (h : s.bindsLabel = true) {closer opener : String} :
    l.role ≠ .orphan closer opener := by
  intro hrole
  unfold role at hrole
  rw [hs] at hrole
  cases s with
  | statement s => cases s <;> cases hrole <;> cases h
  | _ => cases hrole

/-- The first of some lines that both programs have, or the line that gets a label. In the second case the
block it may open has an end. -/
theorem lines_next_alike (h : AtLine K π l m (a.moveTo l.pos) (b.moveTo m.pos)) (hargs : l.PassesSteady K.free)
    (hrest : Rewritten K ls ms) (hleft : a.isInterrupted = true → a.Alike K π none False b)
    (hdone : ∀ c, (Call.lines (l :: ls)).next a = .done c → ∀ x ∈ c.diagnostics, ¬K.bad x) :
    NextAlike K π ((Call.lines (l :: ls)).next a) ((Call.lines (m :: ms)).next b) := by
  unfold Call.next at hdone ⊢
  dsimp only at hdone ⊢
  rw [show b.isInterrupted = a.isInterrupted from h.isInterrupted, role_renamed h.stmt]
  cases hgoes : a.isInterrupted with
  | true => exact .ended (hleft hgoes)
  | false =>
  rw [hgoes] at hdone
  cases hrole : l.role with
  | opens kind s =>
    rw [hrole] at hdone
    have hsplit := hrest.splitBlock kind []
    dsimp only [LineRole.renamed] at hdone ⊢
    generalize splitBlock kind [] ls = x at hsplit hdone
    generalize splitBlock kind [] ms = y at hsplit
    cases hsplit with
    | none =>
      cases h with
      | same hline h => exact .ended ((h.setOpened none).reportSame rfl)
      | joined hjoins hname hwaits hnone h =>
        refine absurd (hjoins.closed kind.closer) (hdone _ rfl _ ?_)
        rw [← h.names]
        exact Array.mem_push_self
    | @some x y hxy =>
      obtain ⟨body, close, rest⟩ := x
      obtain ⟨body', close', rest'⟩ := y
      obtain ⟨hbody, hclose, hrest⟩ := hxy
      exact .call (.refl π) (.block (h.setOpened none) (stmt_of_role hrole) hbody hclose)
        fun _ h _ _ => .lines hrest h
  | orphan closer opener =>
    cases h with
    | same hline h => exact .last (.lines hrest (h.reportSame rfl).offLine)
    | joined hjoins hname hwaits hnone h =>
      obtain ⟨s, hs, -, hbinds, -⟩ := hjoins.stmt
      exact absurd hrole (role_ne_orphan hs hbinds)
  | single => exact .call (.refl π) (.line h hargs) fun _ h _ _ => .lines hrest h

/-- One of the calls is at a loop and the other at the lines written in its place, or one is at a label that the
next line has in the other. -/
inductive AtRewriting (K : Rewriting) (π : ScopeMap) (a b : Assembly) : Call → Call → Prop where
  | loop {count : Int64} {start close : SourceLine} {body ls ms : List SourceLine} {copies : List (List SourceLine)}
    (hloop : K.WritesOut count start body close copies) (hrest : Rewritten K ls ms) (h : a.Alike K π none False b) :
    AtRewriting K π a b (.lines (start :: (body ++ close :: ls))) (.lines (copies.flatten ++ ms))
  | label {label l m : SourceLine} {ls ms : List SourceLine} (hjoins : K.Joins label l m)
    (hargs : l.PassesSteady K.free) (hrest : Rewritten K ls ms) (h : a.Alike K π none False b) :
    AtRewriting K π a b (.lines (label :: l :: ls)) (.lines (m :: ms))

/-- Calls alike go on alike if nothing bad is reported, except at what is written in another way. -/
theorem CallAlike.next (hcall : CallAlike K π x a y b) (hgood : ∀ x ∈ a.diagnostics, ¬K.bad x)
    (hdone : ∀ c, x.next a = .done c → ∀ x ∈ c.diagnostics, ¬K.bad x) :
    NextAlike K π (x.next a) (y.next b) ∨ AtRewriting K π a b x y := by
  cases hcall with
  | nothing h => exact .inl (.ended h)
  | lines hlines h =>
    cases hlines with
    | nil => exact .inl (.ended h)
    | cons hline hargs hrest =>
      exact .inl (lines_next_alike (.same hline (h.moveTo hline.pos)) hargs hrest (fun _ => h) hdone)
    | loop hloop hrest => exact .inr (.loop hloop hrest h)
    | label hjoins hargs hrest => exact .inr (.label hjoins hargs hrest h)
  | line h hargs => exact .inl (line_next_alike h hargs)
  | expand hd hsteady hargs hpos h => exact .inl (nextExpansion_alike h hd hsteady hargs hpos)
  | block h hs hbody hclose => exact .inl (nextBlock_alike hbody hclose h hs hgood hdone)
  | passes hloop n carried h => exact .inl (passes_next_alike hloop n carried h)
  | labelled hjoins hargs hrest hname hwaits hnone hgoes h =>
    have hmoved := h.moveTo ⟨hjoins.file, fun hexact => absurd hexact hjoins.inexact⟩
    refine .inl (lines_next_alike (.joined hjoins hname hwaits hnone hmoved) hargs hrest (fun hleft => ?_) hdone)
    rw [hgoes] at hleft
    cases hleft

end SpectrumAsm
