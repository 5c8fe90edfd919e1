/-
Every run of the assembler is a nested walk with a history: loops, macros, blocks, and whole programs.

That a walk is nested holds in any state. Structure instances are put into the program from the lines kept in
the symbol table, so the history is that of a state which can come about, whose structures are known to fit.
-/
import SpectrumAsm.Proofs.Frames
import SpectrumAsm.Proofs.Resolver

namespace SpectrumAsm

open List Text SymbolTable

variable {α : Type} {kind : ScopeKind} {pass : Int64} {a b c d : Assembly} {id : Nat} {key : String} {call : Call}
  {walk : Option LineWalker} {counted : Option (Nat × String)} {R : Assembly → Assembly → Prop} {line : SourceLine}

/-! ## Runs -/

/-- Of the scopes with numbers below `n` none is ended or closed. -/
def Inner (n : Nat) (es : List Event) : Prop := ∀ id < n, .ends id ∉ es ∧ .closes id ∉ es

namespace Inner

variable {n m : Nat} {es fs : List Event}

theorem mono (h : Inner m es) (hn : n ≤ m) : Inner n es := fun id hid => h id (Nat.lt_of_lt_of_le hid hn)

theorem append (h : Inner n es) (h' : Inner n fs) : Inner n (es ++ fs) := fun id hid => by
  simp only [mem_append, not_or]
  exact ⟨⟨(h id hid).1, (h' id hid).1⟩, (h id hid).2, (h' id hid).2⟩

theorem single {e : Event} (h : ∀ id < n, e ≠ .ends id ∧ e ≠ .closes id) : Inner n [e] := fun id hid => by
  simp only [mem_singleton]
  exact ⟨fun he => (h id hid).1 he.symm, fun he => (h id hid).2 he.symm⟩

theorem rewrites (n : Nat) (xs : List Extent) : Inner n (xs.map .rewrites) := fun id _ => by simp

end Inner

/-- A nested walk, with its history as far as the state it begins in can come about. The scopes that
are there at its beginning are neither ended nor closed. -/
structure Follows (a b : Assembly) : Prop where
  nested : ∃ ids, Nested a ids b
  history : Reachable a → ∃ es, History a es b ∧ Inner a.symbols.nextScope es

/-- Actions, as far as the state they begin in can come about. -/
def Runs (a b : Assembly) : Prop := Reachable a → Acts a b

namespace Follows

theorem ofTame (h : Tame a b) (hh : Reachable a → ∃ xs : List Extent, History a (xs.map .rewrites) b) :
    Follows a b := by
  refine ⟨⟨[], .even (.ofTame h)⟩, fun ha => ?_⟩
  obtain ⟨xs, hes⟩ := hh ha
  exact ⟨_, hes, .rewrites _ xs⟩

theorem ofCalm (h : Calm a b) : Follows a b := ofTame h.tame fun _ => ⟨[], h.history⟩

theorem refl (a : Assembly) : Follows a a := ofCalm (.refl a)

theorem runs (h : Follows a b) : Runs a b := fun ha => by
  obtain ⟨_, hes, -⟩ := h.history ha
  exact hes.acts

theorem moves (h : Follows a b) (ha : Reachable a) : Moves a b := (h.runs ha).moves

theorem level (h : Follows a b) : Level a b := by
  obtain ⟨_, hn⟩ := h.nested
  exact hn.level

theorem trans (h : Follows a b) (h' : Follows b c) : Follows a c := by
  refine ⟨?_, fun ha => ?_⟩
  · obtain ⟨_, hn⟩ := h.nested
    obtain ⟨_, hn'⟩ := h'.nested
    exact ⟨_, hn.trans hn'⟩
  · obtain ⟨_, hes, hinner⟩ := h.history ha
    obtain ⟨_, hes', hinner'⟩ := h'.history (ha.moves hes.moves)
    exact ⟨_, hes.trans hes', hinner.append (hinner'.mono h.level.scopes)⟩

instance : IsPreorder Assembly Follows where
  refl := refl
  trans _ _ _ := trans

theorem report (a : Assembly) (fault : Fault) : Follows a (a.report fault) := ofCalm (.report a fault)

theorem between {s : Assembly} {es fs : List Event} (h : Follows s b) (hs : History a es s) (hb : History b fs c)
    (hle : a.symbols.nextScope ≤ s.symbols.nextScope) (hes : Inner a.symbols.nextScope es)
    (hfs : Inner a.symbols.nextScope fs) (ha : Reachable a) : ∃ gs, History a gs c ∧ Inner a.symbols.nextScope gs := by
  obtain ⟨_, hgs, hinner⟩ := h.history (ha.moves hs.moves)
  exact ⟨_, (hs.trans hgs).trans hb, (hes.append (hinner.mono hle)).append hfs⟩

section
variable (h : Follows (a.enterScope kind pass) b)
include h

theorem top? : b.symbols.top? = some a.symbols.nextScope := by
  rw [SymbolTable.top?, h.level.active]
  rfl

/-- A walk inside a scope that is opened before it and closed behind it. -/
theorem scope : Follows a b.closeScope := by
  refine ⟨?_, h.between (.single (.opens a kind pass)) (.single (.closes h.top?)) ?_ (.single ?_) (.single ?_)⟩
  · obtain ⟨_, hn⟩ := h.nested
    exact ⟨_, .scope kind pass hn⟩
  · rw [nextScope_enterScope]
    exact Nat.le_succ _
  · exact fun id _ => by simp
  · exact fun id hid => by simp [Nat.ne_of_gt hid]

/-- At the end of a scope its patches are resolved; then it closes. -/
theorem ended (h' : Follows (b.resolveScope a.symbols.nextScope) c) : Follows a c.closeScope := by
  have heven : Even b (b.resolveScope a.symbols.nextScope) := Even.settling.resolveScope b _
  have htop : c.symbols.top? = some a.symbols.nextScope := by
    rw [SymbolTable.top?, h'.level.active, heven.active]
    exact h.top?
  have hscopes := h.level.scopes
  rw [nextScope_enterScope] at hscopes
  refine ⟨?_, fun ha => ?_⟩
  · obtain ⟨_, hn⟩ := h.nested
    obtain ⟨_, hn'⟩ := h'.nested
    exact ⟨_, .scope kind pass ((hn.trans (.even heven)).trans hn')⟩
  · obtain ⟨_, hends, hinner⟩ := h.between (.single (.opens a kind pass)) (.single (.ends h.top?))
      (by rw [nextScope_enterScope]; exact Nat.le_succ _) (.single fun id _ => by simp)
      (.single fun id hid => by simp [Nat.ne_of_gt hid]) ha
    refine h'.between hends (.single (.closes htop)) ?_ hinner (.single ?_) ha
    · rw [heven.nextScope]
      omega
    · exact fun id hid => by simp [Nat.ne_of_gt hid]

end

theorem module {name : String} {t : SymbolTable} (he : a.symbols.enterModule name = .ok t)
    (h : Follows { a with symbols := t } b) :
    Follows a { b with symbols := b.symbols.leaveModule } := by
  refine ⟨?_, h.between (.single (.enters he)) (.single (.leaves b)) ?_ (.single ?_) (.single ?_)⟩
  · obtain ⟨_, hn⟩ := h.nested
    exact ⟨_, .module he hn⟩
  · exact Nat.le_of_eq (nextScope_enterModule he).symm
  · exact fun _ _ => by simp
  · exact fun _ _ => by simp

theorem deeper (h : Follows { a with macroDepth := a.macroDepth + 1 } b) :
    Follows a { b with macroDepth := b.macroDepth - 1 } := by
  refine ⟨?_, h.between (.single (.deepens a _)) (.single (.deepens b _)) (Nat.le_refl _) (.single ?_) (.single ?_)⟩
  · obtain ⟨_, hn⟩ := h.nested
    exact ⟨_, .deeper hn⟩
  · exact fun _ _ => by simp
  · exact fun _ _ => by simp

end Follows

theorem Step.Keeps.follows {x : Step α} (h : x.Keeps Calm) : x.Keeps Follows := fun a =>
  .ofCalm (h a)

theorem modify_follows {f : Assembly → Assembly} (h : ∀ a, Calm a (f a)) :
    Walk.Keeps Follows (modify f) := .modify fun a => .ofCalm (h a)

theorem modifyTop_calm (a : Assembly) {f : Scope → Scope} (hframe : ∀ s, (f s).frame = s.frame)
    (hsymbols : ∀ s, (f s).symbols = s.symbols) : Calm a { a with symbols := a.symbols.modifyTop f } := by
  have hsame (s : Scope) : (f s).kind = s.kind ∧ (f s).parent = s.parent ∧ (f s).symbols = s.symbols :=
    ⟨congrArg (·.1) (hframe s), congrArg (·.2.1) (hframe s), hsymbols s⟩
  exact .symbols (.modifyTop a.symbols f hsame) (.modifyTop hframe hsymbols) fun _ _ hb =>
    hb.of_modifyTop hsymbols

theorem Follows.naming : Naming Follows :=
  ⟨fun h hd => .ofCalm (.note h hd), fun a name kind value => .ofCalm (define_calm a name kind value)⟩

/-! ## Frames -/

theorem Counts.level (h : Level a b) (ha : Counts id key a) : Counts id key b := by
  obtain ⟨hid, hlt, s, hs, hkind, hvalue⟩ := ha
  obtain ⟨s', hs', hremains⟩ := h.kept id hid hlt key s hs
  exact ⟨h.active ▸ hid, Nat.lt_of_lt_of_le hlt h.scopes, s', hs', hremains.kind.trans hkind, hremains.value hvalue⟩

theorem Counts.enterScope (ha : Counts id key a) (kind : ScopeKind) (pass : Int64) :
    Counts id key (a.enterScope kind pass) := by
  obtain ⟨hid, hlt, s, hs, hvar⟩ := ha
  refine ⟨mem_cons_of_mem _ hid, ?_, s, ?_, hvar⟩
  · rw [nextScope_enterScope]
    omega
  · simpa only [symbolsAt, scopes_enterScope a kind pass hlt] using hs

theorem Counts.assign_calm (ha : Counts id key a) (v : Value) :
    Calm a { a with symbols := a.symbols.assign (.scope id) key v } := by
  obtain ⟨hid, -, s, hs, hkind, -⟩ := ha
  refine .symbols (.count a.symbols id key v) (.assign ?_ (fun x hx => ?_) v) fun _ _ hb => hb.of_assign.1
  · exact mem_append_left _ (mem_map_of_mem hid)
  · rw [hs] at hx
    cases hx
    exact hkind

theorem Assembly.HasVariable.level (ha : a.HasVariable counted)
    (h : Level a b) : b.HasVariable counted := fun x hx => (ha x hx).level h

theorem Tidies.tame (h : Tidies counted a b)
    (hvar : a.HasVariable counted) : Tame a b ∧ History a [] b := by
  have hcalm {a b : Assembly} (h : Calm a b) : Tame a b ∧ History a [] b := ⟨h.tame, h.history⟩
  induction h with
  | refl a => exact hcalm (.refl a)
  | trans _ _ ih ih' =>
    obtain ⟨htame, hhistory⟩ := ih hvar
    obtain ⟨htame', hhistory'⟩ := ih' (hvar.level (Follows.ofTame htame fun _ => ⟨[], hhistory⟩).level)
    exact ⟨htame.trans htame', hhistory.trans hhistory'⟩
  | note h hd => exact hcalm (.note h hd)
  | define a name kind value => exact hcalm (define_calm a name kind value)
  | closeInstance a => exact ⟨.ofEdits rfl rfl (.same rfl), .idle (.closeInstance a) (.refl _) rfl⟩
  | addMacro a d =>
    exact hcalm (.symbols (.addMacro a.symbols d) (.modifyModule _ (fun _ => rfl) fun _ => rfl) fun _ _ hb =>
      hb.of_modifyModule fun _ => rfl)
  | addStruct a d hfits =>
    exact hcalm (.symbols (.addStruct hfits) (.modifyModule _ (fun _ => rfl) fun _ => rfl) fun _ _ hb =>
      hb.of_modifyModule fun _ => rfl)
  | openLoop a key v => exact hcalm (openLoop_calm a key v)
  | assign hid a v => exact hcalm ((hvar _ hid).assign_calm v)

theorem Tidies.follows (h : Tidies counted a b)
    (hvar : a.HasVariable counted) : Follows a b :=
  .ofTame (h.tame hvar).1 fun _ => ⟨[], (h.tame hvar).2⟩

theorem Tidies.plain (h : Tidies none a b) : Follows a b := h.follows (.none a)

theorem Tidies.history (h : Tidies none a b) : History a [] b := (h.tame (.none a)).2

theorem Follows.body (h : Follows (a.openScope kind) b) (label : Option String) (pos : Position) :
    Follows a ((b.bindEndLabel label pos).resolveScope a.symbols.nextScope).closeScope := by
  rw [← enterScope_zero] at h
  exact (h.trans (.ofCalm (bindEndLabel_calm b label pos))).ended (.refl _)

/-- What is done around a call completes the history of the call. -/
theorem Around.follows (h : Around call a b c d) (hvar : a.HasVariable call.counted?)
    (hbc : Follows b c) : Follows a d := by
  cases h with
  | even hin hout => exact hin.plain.trans (hbc.trans hout.plain)
  | scope kind pass _ hin hlabel hend hout =>
    have hopened := hin.follows fun x hx => (hvar x hx).enterScope kind pass
    exact (((hopened.trans hbc).trans hlabel.plain).ended hend.plain).trans hout.plain
  | loop hin hout => exact hout ▸ (hin.plain.trans hbc).scope
  | module henter hin hlabel hout =>
    subst hin hout
    exact (hbc.trans hlabel.plain).module henter
  | expansion _ hin hout =>
    subst hin hout
    exact (Follows.body (a := { a with macroDepth := a.macroDepth + 1 }) hbc _ _).deeper

/-! ## Loops -/

section
variable {σ : Type} {loop : LoopCall σ} {walk : LineWalker} (hwalk : (walk loop.body).Keeps Follows)
include hwalk

theorem pass_follows (h : Follows (a.enterScope .pass pass) b) : Follows a (loop.pass walk b).2 := by
  have hwalked := (hwalk b).trans (.ofCalm (bindEndLabel_calm _ loop.close.label loop.close.pos))
  obtain ⟨c, hc, hrun⟩ := closePass_tidies
    ((((walk loop.body).run b).2.bindEndLabel loop.close.label loop.close.pos).resolveScope a.symbols.nextScope)
    loop.close loop.kind
  have hpass : (loop.pass walk b).2 = c.closeScope := by
    rw [← hrun, LoopCall.pass, h.top?]
    rfl
  rw [hpass]
  exact (h.trans hwalked).ended hc.plain

theorem Iterates.follows {left n : Nat} {carried : σ} {ps : List (Pass σ)} {e : LoopEnd}
    (h : Iterates loop walk left n carried a ps e b) (hvar : a.HasVariable loop.kind.counted?) : Follows a b := by
  have hdecide {n : Nat} {carried : σ} {a b : Assembly} {v : Option σ} (hd : loop.decide n carried a = (v, b))
      (hvar : a.HasVariable loop.kind.counted?) : Follows (a.enterScope .pass (Int64.ofNat (n + 1))) b := by
    have htidies := loop.decide_tidies n carried a
    rw [hd] at htidies
    exact htidies.follows fun x hx => (hvar x hx).enterScope .pass _
  have hpass {n : Nat} {carried v : σ} {a b c : Assembly} {done : Bool} (hd : loop.decide n carried a = (some v, b))
      (hp : loop.pass walk b = (done, c)) (hvar : a.HasVariable loop.kind.counted?) : Follows a c := by
    have hfollows := pass_follows hwalk (hdecide hd hvar)
    rwa [hp] at hfollows
  induction h with
  | declined hd => exact (hdecide hd hvar).scope
  | overflow hd => exact (hdecide hd hvar).scope.trans (.report _ _)
  | faulty hd hp _ =>
    exact (hpass hd hp hvar).trans (.ofCalm ((Calm.note (.setPos _ loop.start) rfl).trans (.report _ _)))
  | finished hd hp _ => exact hpass hd hp hvar
  | next hd hp _ _ ih => exact (hpass hd hp hvar).trans (ih (hvar.level (hpass hd hp hvar).level))

end

section
variable {walk : LineWalker} (hwalk : ∀ lines, (walk lines).Keeps Follows)
include hwalk

theorem Call.walkBy_follows (hvar : a.HasVariable call.counted?) : Follows a (call.walkBy walk a) := by
  cases call with
  | lines lines => exact hwalk lines a
  | passes loop n carried =>
    obtain ⟨_, _, h⟩ := iterates loop walk (a.setup.options.maxLoopIterations.toInt.toNat - n) n carried a
    exact h.follows (hwalk loop.body) hvar
  | _ => exact .refl a

theorem Next.Framed.follows {next : Next} (h : next.Framed .nothing a) : Follows a (next.walkBy walk) := by
  obtain ⟨s, hs, hnext⟩ := h
  cases next with
  | done b =>
    rcases hnext with rfl | ⟨pass, c, hc, hb⟩
    · exact hs.plain
    · exact hs.plain.trans ((Tidies.plain hc).scope.trans hb.plain)
  | call inner b resume =>
    exact hs.plain.trans ((hnext.2 _).2.follows (.none s) (Call.walkBy_follows hwalk hnext.1))

variable (var : String) (first last : Expr) (step : Option Expr) (body : List SourceLine) (close : SourceLine)

theorem forLoop_ended (a : Assembly) : Calm a ((forLoop var first last step (walk body) close).run a).2 ∨
      ∃ b c, Asked a b ∧ Follows (b.enterScope .loop 0) c ∧ Counts b.symbols.nextScope (upcase var) c ∧
        ((forLoop var first last step (walk body) close).run a).2 = c.closeScope := by
  have hasked : Asked a ((evalBounds first last step).run.run a).2 := evalBounds_asked first last step a
  rw [run_forLoop]
  unfold nextFor
  split
  · exact .inl (.report a _)
  split
  · next hrun =>
    rw [hrun] at hasked
    exact .inl ((Calm.ofAsked hasked).trans (.report _ _))
  · next b hrun =>
    rw [hrun] at hasked
    have hcounts (v : Value) := Counts.openLoop b (upcase var) v
    have hloop (v last step : Value) (start : Position) (faults : Nat) : Follows (b.openLoop (upcase var) v)
        (Call.walkBy walk (.passes ⟨.counting b.symbols.nextScope (upcase var) last step, body, close, start, faults⟩
          0 v) _) :=
      Call.walkBy_follows hwalk fun x hx => by
        cases hx
        exact hcounts v
    have hopened (v : Value) : Follows (b.enterScope .loop 0) (b.openLoop (upcase var) v) := by
      rw [enterScope_zero]
      exact .ofCalm (openLoop_calm b _ _)
    exact .inr ⟨b, _, hasked, (hopened _).trans (hloop _ _ _ _ _), (hcounts _).level (hloop _ _ _ _ _).level, rfl⟩

theorem forLoop_follows : (forLoop var first last step (walk body) close).Keeps Follows := fun a => by
  rw [run_forLoop]
  exact (nextFor_framed body close a var first last step).follows hwalk

end

/-! ## Macros -/

theorem size_foldl_reportAt {α : Type} (f : α → Fault) (pos : α → Position) (xs : List α) (a : Assembly) :
    (xs.foldl (fun a x => a.reportAt (f x) (pos x)) a).diagnostics.size = a.diagnostics.size + xs.length := by
  induction xs generalizing a with
  | nil => rfl
  | cons x xs ih =>
    rw [foldl_cons, ih, length_cons]
    simp only [Assembly.reportAt, Array.size_push]
    omega

theorem defineMacro_accepted {name : Option String} {params : List String} {body : List SourceLine}
    {close : SourceLine} (h : ((reporting (defineMacro name params body close)).run a).2.diagnostics = a.diagnostics) :
    unknownParams params body = [] ∧ ∃ key ∈ name.map upcase,
      (reporting (defineMacro name params body close)).run a =
      ((), { a with symbols := a.symbols.addMacro ⟨key, params, body, close.label⟩ }) := by
  unfold defineMacro at h ⊢
  dsimp only at h ⊢
  split at h
  · exact absurd h (report_ne a _)
  next hnested =>
  rw [if_neg hnested]
  cases name with
  | none => exact absurd h (report_ne a _)
  | some name =>
  cases hrepeated : repeatedParam? [] params with
  | some param =>
    rw [hrepeated] at h
    exact absurd h (report_ne a _)
  | none =>
  rw [hrepeated] at h
  rw [run_reporting, Step.run_bind, Step.run_get] at h ⊢
  dsimp only at h ⊢
  by_cases hdefined : a.symbols.hasMacro (upcase name) = true
  · rw [if_pos hdefined] at h
    exact absurd h (report_ne a _)
  rw [if_neg hdefined] at h ⊢
  cases hunknown : unknownParams params body with
  | nil => exact ⟨rfl, _, rfl, rfl⟩
  | cons first rest =>
    rw [hunknown] at h
    have hsize := size_foldl_reportAt (fun x : String × Position => .unknownMacroArg x.1) (·.2) (first :: rest) a
    rw [show ((first :: rest).foldl (fun a x => a.reportAt (.unknownMacroArg x.1) x.2) a).diagnostics = a.diagnostics
      from h, length_cons] at hsize
    omega

theorem runExpansion_follows {walk : LineWalker} (hwalk : ∀ lines, (walk lines).Keeps Follows)
    (pos : Position) (d : MacroDef) (args : List Operand) :
    (runExpansion walk pos d args).Keeps Follows := fun a =>
  (Follows.body (a := { a with macroDepth := a.macroDepth + 1 }) (hwalk _ _) d.endLabel pos).deeper

section
variable (hwalk : ∀ w ∈ walk, ∀ lines, (w lines).Keeps Follows) (pos : Position)
include hwalk

theorem expandMacro_follows (d : MacroDef) (args : List Operand) : (expandMacro walk pos d args).Keeps Follows := by
  unfold expandMacro
  dsimp only
  split
  · exact fun a => .refl a
  refine Step.Keeps.get.bind fun a => ?_
  split
  · exact fun a => .refl a
  cases walk with
  | none => exact .throw _
  | some walk => exact .lift (runExpansion_follows (hwalk walk rfl) pos d args)

theorem invoke_follows (name : String) (args : List Operand) : (invoke walk pos name args).Keeps Follows := by
  refine .get_bind fun a => ?_
  dsimp only
  cases a.symbols.findMacro? name with
  | some d => exact expandMacro_follows hwalk pos d args a
  | none =>
    cases hd : a.symbols.findStruct? name with
    | none => exact .refl a
    | some d =>
      dsimp only
      split
      · exact .ofTame (Tame.filing.invokeStruct d (fun _ _ p _ a => (runPragma_quiet none p a).tame) a) fun ha =>
          ⟨[], invokeStruct_history (ha.structsFit.findStruct hd) ha.branchesInside⟩
      · exact .refl a

end

/-! ## Single lines -/

theorem closeInstance_follows (a : Assembly) : Follows a { a with opened := none } :=
  (Tidies.closeInstance a).plain

theorem runStatement_keeps [IsPreorder Assembly R]
    (hmodify : ∀ (a : Assembly) {f : Scope → Scope}, (∀ s, (f s).frame = s.frame) →
      (∀ s, (f s).symbols = s.symbols) → R a { a with symbols := a.symbols.modifyTop f }) (s : Statement) :
    (runStatement s).Keeps R := by
  have hleave (exit : LoopExit) (fault : Fault) : (leavePass exit fault).Keeps R := by
    refine Step.Keeps.get.bind fun a => ?_
    split
    · exact .modify fun a => hmodify a (fun _ => rfl) fun _ => rfl
    · exact fun a => refl a
  cases s with
  | breakLoop | continueLoop => exact hleave _ _
  | locals names =>
    refine Step.Keeps.get.bind fun a => ?_
    split
    · refine .forM names fun name _ => Step.Keeps.get.bind fun a => ?_
      dsimp only
      split
      · exact fun a => refl a
      · exact .modify fun a => hmodify a (fun _ => rfl) fun _ => rfl
    · exact fun a => refl a
  | _ => exact .pure _

theorem runStatement_calm (s : Statement) : (runStatement s).Keeps Calm := runStatement_keeps modifyTop_calm s

namespace Naming

variable {R : Assembly → Assembly → Prop} [IsPreorder Assembly R] (h : Naming R) (walk : Option LineWalker)
  (line : SourceLine)
include h

theorem runStmt_pragma {p : Pragma} (hp : ∀ label, (label = none ∨ p.setsLabel = true) → (runPragma label p).Keeps R) :
    (runStmt walk line (.pragma p)).Keeps R := by
  unfold runStmt
  dsimp only
  split
  · next hsets =>
    refine .bind (.modifyGet fun a => h.takeLabel a line) fun label => ?_
    exact .bind (.modify h.flushLabel) fun _ => (hp label (.inr hsets)).reporting h.report
  · exact .bind (.modify fun a => h.bindLineLabel a line) fun _ => (hp none (.inl rfl)).reporting h.report

theorem runStmt_op {m : Cpu.Mnemonic} {operands : List Operand} (hemit : (emitOperation m operands).Keeps R) :
    (runStmt walk line (.op m operands)).Keeps R :=
  .bind (.modify fun a => chain (h.bindLineLabel a line) (h.note (.recordLine _ line.pos) rfl)) fun _ =>
    hemit.reporting h.report

theorem runStmt_statement {s : Statement} (hs : (runStatement s).Keeps R) :
    (runStmt walk line (.statement s)).Keeps R :=
  .bind (.modify fun a => h.bindLineLabel a line) fun _ => hs.reporting h.report

end Naming

theorem run_walkSingle_stmt {s : Stmt} (hs : line.stmt = some s) (walk : Option LineWalker)
    (a : Assembly) : (walkSingle walk line).run a =
      (if s.hasParam then modify fun a => a.report (a.paramFault s) else runStmt walk line s : Walk Unit).run
        (if s.keepsInstance then a else { a with opened := none }) := by
  unfold walkSingle
  rw [hs]
  dsimp only
  cases s.keepsInstance <;> rfl

theorem run_reporting_related [IsTrans Assembly R] {x : Step Unit}
    (hx : R a (x.run.run a).2) (hreport : ∀ (b : Assembly) (fault : Fault), R b (b.report fault)) :
    R a ((reporting x).run a).2 := by
  rw [run_reporting]
  split
  · next h =>
    rw [h] at hx
    exact hx
  · next h =>
    rw [h] at hx
    exact IsTrans.trans _ _ _ hx (hreport _ _)

/-- A line with a pragma or an operation. -/
def SourceLine.IsPlain (line : SourceLine) : Prop :=
  (∃ p, line.stmt = some (.pragma p)) ∨ ∃ m operands, line.stmt = some (.op m operands)

theorem Drafting.plain [IsPreorder Assembly R] (h : Drafting R)
    (walk : Option LineWalker) (hline : line.IsPlain) (a : Assembly)
    (hpragma : ∀ p label, line.stmt = some (.pragma p) → (label = none ∨ p.setsLabel = true) →
      (SpectrumAsm.runPragma label p).Keeps R) : R { a with opened := none } ((walkSingle walk line).run a).2 := by
  have hrun {s : Stmt} (hs : line.stmt = some s) (hkeeps : s.keepsInstance = false)
      (hstmt : (runStmt walk line s).Keeps R) : R { a with opened := none } ((walkSingle walk line).run a).2 := by
    rw [run_walkSingle_stmt hs, hkeeps, if_neg Bool.false_ne_true]
    split
    · exact h.report _ _
    · exact hstmt _
  rcases hline with ⟨p, hs⟩ | ⟨m, operands, hs⟩
  · exact hrun hs rfl (h.runStmt_pragma walk line fun label => hpragma p label hs)
  · exact hrun hs rfl (h.runStmt_op walk line (h.emits (emitOperation_emits m operands)))

theorem walkSingle_plain (walk : Option LineWalker) (h : line.IsPlain) (a : Assembly) :
    Tame a ((walkSingle walk line).run a).2 ∧ History a [] ((walkSingle walk line).run a).2 := by
  have hclosed : History a [] { a with opened := none } := .idle (.closeInstance a) (.refl _) rfl
  have htame : Tame a { a with opened := none } := .ofEdits rfl rfl (.same rfl)
  have hquiet := Quiet.drafting.plain walk h a fun p label _ _ => runPragma_quiet label p
  exact ⟨htame.trans hquiet.tame, hclosed.trans (hquiet.history rfl).1⟩

namespace Naming

variable {R : Assembly → Assembly → Prop} [IsPreorder Assembly R] (h : Naming R) {line : SourceLine}
include h

theorem walkSingle_field {name : Option String} {p : Pragma} (hs : line.stmt = some (.field name p))
    (hput : (overrideField name p).Keeps R) : R a ((walkSingle walk line).run a).2 := by
  have hkeeps : (Stmt.field name p).keepsInstance = true := rfl
  rw [run_walkSingle_stmt hs, if_pos hkeeps]
  split
  · exact h.report a _
  · exact Walk.Keeps.bind (.modify fun a => h.bindLineLabel a line) (fun _ => hput.reporting h.report) a

/-- A line by itself, given what becomes of one with a pragma or an operation, of an override and of an
invocation. -/
theorem single (hclose : ∀ a : Assembly, R a { a with opened := none })
    (hplain : line.IsPlain → R a ((walkSingle walk line).run a).2)
    (hfield : ∀ name p, line.stmt = some (.field name p) → R a ((walkSingle walk line).run a).2)
    (hinvoke : ∀ name args, line.stmt = some (.invoke name args) →
      R (a.atInvocation line) ((invoke walk line.pos name args).run.run (a.atInvocation line)).2)
    (hstatement : ∀ s, (runStatement s).Keeps R) : R a ((walkSingle walk line).run a).2 := by
  cases hs : line.stmt with
  | none =>
    unfold walkSingle
    rw [hs]
    cases line.label with
    | none => exact refl a
    | some label => exact chain (h.flushLabel a) (h.note (.setHanging _ _) rfl)
  | some s =>
    cases s with
    | pragma p => exact hplain (.inl ⟨p, hs⟩)
    | op m operands => exact hplain (.inr ⟨m, operands, hs⟩)
    | field name p => exact hfield name p hs
    | invoke name args =>
      have hat : R a (a.atInvocation line) :=
        chain (hclose a) (chain (h.bindLineLabel _ line) (h.note (.recordLine _ _) rfl))
      have hrun : (runStmt walk line (.invoke name args)).run { a with opened := none } =
          (reporting (invoke walk line.pos name args)).run (a.atInvocation line) := rfl
      rw [run_walkSingle_stmt hs]
      split
      · exact chain (hclose a) (h.report _ _)
      · show R a ((runStmt walk line (.invoke name args)).run { a with opened := none }).2
        rw [hrun]
        exact chain hat (run_reporting_related (hinvoke name args hs) h.report)
    | statement s =>
      rw [run_walkSingle_stmt hs]
      refine chain (hclose a) ?_
      split
      · exact h.report _ _
      · exact h.runStmt_statement walk line (hstatement s) _
    | directive d =>
      rw [run_walkSingle_stmt hs]
      refine chain (hclose a) ?_
      split
      · exact h.report _ _
      · exact refl _

end Naming

theorem walkSingle_follows (hwalk : ∀ w ∈ walk, ∀ lines, (w lines).Keeps Follows)
    (line : SourceLine) : (walkSingle walk line).Keeps Follows := by
  refine fun a => Follows.naming.single closeInstance_follows (fun hplain => ?_) (fun name p hs => ?_)
    (fun name args _ => invoke_follows hwalk line.pos name args _) fun s => (runStatement_calm s).follows
  · obtain ⟨htame, hhistory⟩ := walkSingle_plain walk hplain a
    exact .ofTame htame fun _ => ⟨[], hhistory⟩
  · exact Follows.naming.walkSingle_field hs fun a =>
      .ofTame (Tame.filing.overrideField name p a) fun ha => overrideField_history name p ha.instanceInPlace

theorem report_follows (fault : Fault) : (report fault).Keeps Follows := modify_follows fun a => .report a fault

theorem walkBlock_follows {walk : LineWalker} (hwalk : ∀ lines, (walk lines).Keeps Follows) (line : SourceLine)
    (s : Statement) (body : List SourceLine) (close : SourceLine) :
    (walkBlock walk line s body close).Keeps Follows := fun a => by
  rw [run_walkBlock]
  exact (nextBlock_framed body close a line s).follows hwalk

/-! ## Calls -/

theorem walkSingle_none_follows (line : SourceLine) : (walkSingle none line).Keeps Follows :=
  walkSingle_follows (by simp) line

/-- What a call does around a further call whose history is known, and what it has to count with behind it. -/
theorem Call.next_follows {inner : Call} {resume : Assembly → Call × Assembly}
    (h : call.next a = .call inner b resume) (hvar : a.HasVariable call.counted?) : b.HasVariable inner.counted? ∧
      ∃ s, Tidies none a s ∧ ∀ c, Follows b c → Around call s b c (resume c).2 ∧ Follows a (resume c).2 ∧
        (resume c).2.HasVariable (resume c).1.counted? := by
  rcases call.next_cases a with ⟨_, -, -, hdone⟩ | hframed
  · rw [h] at hdone
    cases hdone
  rw [h] at hframed
  obtain ⟨s, hs, hinner, hresume⟩ := hframed
  refine ⟨hinner, s, hs, fun c hc => ?_⟩
  obtain ⟨hcounted, haround⟩ := hresume c
  have hfollows := hs.plain.trans (haround.follows (hvar.level hs.plain.level) hc)
  refine ⟨haround, hfollows, ?_⟩
  rcases hcounted with hnone | hsame
  · rw [hnone]
    exact .none _
  · rw [hsame]
    exact hvar.level hfollows.level

/-- By induction on the calls: a walk is nested, and has a history. -/
theorem Walks.follows {t : Tally} (h : Walks call a t b)
    (hvar : a.HasVariable call.counted?) : Follows a b := by
  induction h with
  | @done call a b h =>
    rcases call.next_cases a with ⟨line, -, -, hdone⟩ | ⟨s, hs, hnext⟩
    · rw [h] at hdone
      cases hdone
      exact walkSingle_none_follows line a
    · rw [h] at hnext
      rcases hnext with rfl | ⟨pass, c, hc, hb⟩
      · exact hs.plain
      · have hopened := hc.follows fun x hx => ((hvar.level hs.plain.level) x hx).enterScope .pass pass
        exact hs.plain.trans (hopened.scope.trans hb.plain)
  | call h _ _ ihinner ihrest =>
    obtain ⟨hinner, _, _, hback⟩ := Call.next_follows h hvar
    obtain ⟨-, hfollows, hrest⟩ := hback _ (ihinner hinner)
    exact hfollows.trans (ihrest hrest)

/-! ## Programs -/

theorem walkLines_follows {expand : Option LineWalker} (hexpand : ∀ w ∈ expand, ∀ lines, (w lines).Keeps Follows)
    (n : Nat) (lines : List SourceLine) : (walkLines expand n lines).Keeps Follows := by
  induction n generalizing lines with
  | zero => exact .pure _
  | succ n ih =>
    cases lines with
    | nil => exact .pure _
    | cons line lines =>
      refine Walk.Keeps.get.bind fun a => ?_
      split
      · exact .pure _
      refine .bind (modify_follows fun a => .note (.moveTo a line.pos) rfl) fun _ => ?_
      split
      · next block s _ =>
        refine .bind (.modify closeInstance_follows) fun _ => ?_
        split
        · exact report_follows _
        · exact (walkBlock_follows ih line s _ _).bind fun _ => ih _
      · exact (report_follows _).bind fun _ => ih lines
      · exact (walkSingle_follows hexpand line).bind fun _ => ih lines

theorem walkDepth_follows (depth : Nat) (lines : List SourceLine) : (walkDepth depth lines).Keeps Follows := by
  induction depth generalizing lines with
  | zero => exact walkLines_follows (by simp) _ lines
  | succ depth ih => exact walkLines_follows (by simpa using ih) _ lines

theorem walkProgram_follows (lines : List SourceLine) : (walkProgram lines).Keeps Follows :=
  Walk.Keeps.get.bind fun _ => walkDepth_follows _ lines

theorem sweeps_course (a : Assembly) : Course (Assembly.sweeps none a.pending.size a) [] a.resolveAll :=
  resolveAll_related (R := fun a b => Course a [] b) .refl (fun hq => .head (.giveUp hq)) a

theorem resolveAll_course (a : Assembly) : Course a [] a.resolveAll := by
  obtain ⟨log, hr, -⟩ := sweeps_resolution none a.pending.size a
  exact hr.course.trans (sweeps_course a)

theorem walkProgram_runs (lines : List SourceLine) : (walkProgram lines).Keeps Runs := fun a =>
  (walkProgram_follows lines a).runs

theorem assembleLines_runs (lines : List SourceLine) : (assembleLines lines).Keeps Runs := by
  intro a ha
  have hwalk := walkProgram_runs lines a ha
  exact (hwalk.trans (flushLabel_calm _).acts).trans ⟨[], resolveAll_course _⟩

theorem Arises.walkDepth (h : Arises a) (depth : Nat) (lines : List SourceLine) :
    Arises ((walkDepth depth lines).run a).2 := by
  obtain ⟨_, hrun⟩ := (walkDepth_follows depth lines a).runs h.reachable
  exact h.course hrun

/-! ## Balance -/

theorem walkLines_depth_follows (outer : Option Nat) (n : Nat) (lines : List SourceLine) :
    (walkLines (outer.map walkDepth) n lines).Keeps Follows := by
  refine walkLines_follows (fun w hw lines => ?_) n lines
  obtain ⟨depth, -, rfl⟩ := Option.map_eq_some_iff.1 hw
  exact walkDepth_follows depth lines

/-- Lines end at the level they began at. Whatever is wrong with them, the open scopes, the current module
and the nesting of macros are in the end what they were. In between everything that opens is closed again, in the
reverse order of opening, and no scope gets a number that was given before. -/
theorem walkLines_balanced (outer : Option Nat) (n : Nat) (lines : List SourceLine) (a : Assembly) :
    let b := ((walkLines (outer.map walkDepth) n lines).run a).2
    b.symbols.active = a.symbols.active ∧ b.symbols.current = a.symbols.current ∧ b.macroDepth = a.macroDepth ∧
      ∃ opened, Nested a opened b ∧ opened.Nodup ∧ (∀ id ∈ opened, a.symbols.nextScope ≤ id) ∧
        b.symbols.nextScope = a.symbols.nextScope + opened.length := by
  intro b
  obtain ⟨opened, hnested⟩ := (walkLines_depth_follows outer n lines a).nested
  have hlevel := hnested.level
  obtain ⟨hrange, hnext⟩ := hnested.numbered
  refine ⟨hlevel.active, hlevel.current, hlevel.depth, opened, hnested, ?_, fun id hid => ?_, hnext⟩
  · rw [hrange]
    exact nodup_range'
  · rw [hrange, mem_range'_1] at hid
    exact hid.1

/-! ## Memory -/

theorem assembleLines_edits (lines : List SourceLine) (a : Assembly) : Edits a ((assembleLines lines).run a).2 := by
  obtain ⟨_, hwalk⟩ := (walkProgram_follows lines a).nested
  have hflush := (flushLabel_calm ((walkProgram lines).run a).2).tame.edits
  obtain ⟨_, hr, -⟩ := sweeps_resolution none ((walkProgram lines).run a).2.flushLabel.pending.size
    ((walkProgram lines).run a).2.flushLabel
  have hreport := (resolveAll_noted ((walkProgram lines).run a).2.flushLabel).segments
  exact ((hwalk.edits.trans hflush).trans (Even.settling.resolution hr).edits).trans (.same hreport)

/-- No segment reaches beyond the memory. Lines of all kinds, walked in any state, change segments by
edits only, and so does a whole program. In every state that edits lead to from the beginning, all segments end
at address 65535 or before, also those a structure is measured in. -/
theorem segments_inside_memory (setup : Setup) (lines : List SourceLine) :
    (∀ (outer : Option Nat) (n : Nat) (body : List SourceLine) (a : Assembly),
      Edits a ((walkLines (outer.map walkDepth) n body).run a).2) ∧
    Edits (.new setup) ((assembleLines lines).run (.new setup)).2 ∧
    ∀ d : Draft, Relation.ReflTransGen Edit ([], .new setup) d →
      ∀ segments ∈ d.2.segments :: d.1, ∀ s ∈ segments, s.start.toNat + s.bytes.size ≤ 0x10000 := by
  refine ⟨fun outer n body a => ?_, assembleLines_edits lines _, fun d hd segments hm s hs => ?_⟩
  · obtain ⟨_, hnested⟩ := (walkLines_depth_follows outer n body a).nested
    exact hnested.edits
  · have hnew : Draft.Fits ([], .new setup) := by
      constructor
      · intro s hs
        cases Array.not_mem_empty s hs
      · intro segments hm
        cases hm
    have hfits := fits_of_edits hd hnew
    rcases mem_cons.1 hm with rfl | hm
    · exact hfits.segments s hs
    · exact hfits.aside segments hm s hs

/-- A word at the highest address is refused, a byte is put there, and a second byte behind it is
refused again. -/
def linesAtTheEnd : List SourceLine := [⟨⟨0, 0⟩, none, some (.pragma (.org (.int 0xFFFF))), none⟩,
    ⟨⟨0, 1⟩, none, some (.pragma (.defw [.int 1])), none⟩,
    ⟨⟨0, 2⟩, none, some (.pragma (.defb [.int 2])), none⟩,
    ⟨⟨0, 3⟩, none, some (.pragma (.defb [.int 3])), none⟩]

theorem segments_inside_memory_full :
    let final := ((assembleLines linesAtTheEnd).run (.new {})).2
    final.segments.map (fun s => (s.start, s.bytes)) = #[(0xFFFF, #[2])] ∧
    final.diagnostics.map (·.line) = #[1, 3] ∧
    ∀ s ∈ final.segments, s.start.toNat + s.bytes.size ≤ 0x10000 := by
  obtain ⟨-, hprogram, hreach⟩ := segments_inside_memory {} linesAtTheEnd
  refine ⟨by decide +kernel, by decide +kernel, ?_⟩
  generalize ((assembleLines linesAtTheEnd).run (.new {})).2 = final at hprogram ⊢
  exact hreach ([], final) (hprogram []) _ mem_cons_self

end SpectrumAsm
