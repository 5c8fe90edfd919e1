/-
Steps in states that are alike.

Steps that only evaluate and emit have the same outcome also in a pass that is written out, as long as their
expressions are steady; all others do outside of such loops.
-/
import SpectrumAsm.Proofs.AlikeStates
import SpectrumAsm.Proofs.SteadyCode

namespace SpectrumAsm

open List Assembly SpectrumAsm.Expr Pragma

variable {K : Rewriting} {π : ScopeMap} {pass : Option Nat} {a b : Assembly} {e e' : Expr}

/-- The same line is being assembled in states that are alike. -/
abbrev OnLine (K : Rewriting) (π : ScopeMap) (pass : Option Nat) : Assembly → Assembly → Prop :=
  Alike K π pass True

/-- A run of one step and a run of another have the same outcome, up to the wording of faults. -/
abbrev Step.Alike {α : Type} (K : Rewriting) (π : ScopeMap) (pass : Option Nat) (x y : Step α) (a b : Assembly) :
    Prop :=
  x.Sim K.filled (OnLine K π pass) (Agreeing (OnLine K π pass)) y a b

/-- A run of one walk and a run of another have the same answer. -/
abbrev Walk.Alike {α : Type} (K : Rewriting) (π : ScopeMap) (pass : Option Nat) (x y : Walk α) (a b : Assembly) :
    Prop :=
  x.Sim (Agreeing (OnLine K π pass)) y a b

/-! ## Evaluation -/

/-- The same expression in another case, steady in a pass that is written out. -/
structure Rewriting.Exprs (K : Rewriting) (pass : Option Nat) (e e' : Expr) : Prop where
  folded : e'.folded = e.folded
  steady : pass ≠ none → e.Steady K.free
  filled : K.filled → e.params = []

theorem Rewriting.exprs_renamed (hfilled : K.filled → e.params = []) : K.Exprs none e (e.renamed K.case) :=
  ⟨folded_renamed K.upcase_case e, fun hp => absurd rfl hp, hfilled⟩

/-- An expression evaluated on both sides: it has the same outcome, and one that waits may be left open. -/
structure Evaluates (K : Rewriting) (π : ScopeMap) (pass : Option Nat) (e e' : Expr) (start : Assembly)
    (v w : Evaluated) (a b : Assembly) : Prop where
  expr : e' = e
  outcome : w = v
  states : OnLine K π pass a b
  kept {e : Expr} (he : start.MayWait K pass e) : a.MayWait K pass e
  pending {names : List String} (hv : v = .pending names) : a.MayWait K pass e

theorem Assembly.MayWait.evalAt (h : a.MayWait K pass e) (place : Place) (e' : Expr) :
    (a.evalAt place e').2.MayWait K pass e := by
  refine ⟨h.params, fun hp => ?_⟩
  obtain ⟨hsteady, hawaits, hmarked⟩ := h.steady hp
  exact ⟨hsteady, (Asked.evalAt a place e').awaits.2 hawaits, hmarked.markExpr e'⟩

theorem Assembly.params_of_evalAt {p : Place} {v : Evaluated} (h : (a.evalAt p e).1 = .ok v) : e.params = [] := by
  cases hparams : e.params with
  | nil => rfl
  | cons name names =>
    unfold evalAt at h
    rw [evaluate_param hparams] at h
    cases h

namespace OnLine

theorem evalExpr (h : OnLine K π pass a b) (he : K.Exprs pass e e') :
    (evalExpr e).Sim K.filled (OnLine K π pass) (Evaluates K π pass e e' a) (evalExpr e') a b := by
  have hkept {x : Expr} (hx : a.MayWait K pass x) := hx.evalAt a.place e
  have hfilled {fault : Fault} (hf : K.filled) :=
    evalAt_filled (a := a) (p := a.place) (f := fault) (he.filled hf)
  have hparams {v : Evaluated} := params_of_evalAt (a := a) (p := a.place) (e := e) (v := v)
  have hwaits {names : List String} (hv : (a.evalAt a.place e).1 = .ok (.pending names)) :
      (a.evalAt a.place e).2.MayWait K pass e :=
    ⟨hparams hv, fun hp => ⟨he.steady hp, (Asked.evalAt a a.place e).awaits.2 (evalAt_pending_iff.1 hv).1,
      a.symbols.marked_markExpr e⟩⟩
  obtain ⟨outcome, a', b', ha, hb, hstate⟩ := exists_answer (h.evalHere trivial he.steady)
  unfold Step.Sim SpectrumAsm.evalExpr
  rw [ha] at hkept hfilled hparams hwaits
  rw [Step.run_of, Step.run_of, evalAt_recased he.folded, ha, hb]
  cases outcome with
  | error fault => exact .error ⟨rfl, fun hf => hfilled hf rfl⟩ hstate
  | ok v =>
    exact .ok ⟨eq_of_folded_eq he.folded (hparams rfl), rfl, hstate, hkept, fun hv => hwaits (congrArg _ hv)⟩

end OnLine

/-! ## Code -/

/-- The same code on both sides, with holes for expressions that may be left open. -/
structure CodeAlike (K : Rewriting) (π : ScopeMap) (pass : Option Nat) (c d : Code) (a b : Assembly) : Prop where
  code : d = c
  states : OnLine K π pass a b
  holes : ∀ hole ∈ c.holes, a.MayWait K pass hole.2.2

/-- What is known of the expressions in code: they have no parameters, and are steady in a pass that is written
out. -/
def Rewriting.Coded (K : Rewriting) (pass : Option Nat) (e : Expr) : Prop :=
  e.params = [] ∧ (pass ≠ none → e.Steady K.free)

theorem CodeAlike.add {c d : Code} (h : CodeAlike K π pass c d a b) (bytes : List UInt8) :
    CodeAlike K π pass (c.add bytes) (d.add bytes) a b := ⟨congrArg (·.add bytes) h.code, h.states, h.holes⟩

namespace OnLine

section
variable {c d : Code} (h : CodeAlike K π pass c d a b) (he : K.Exprs pass e e')
include h he

theorem evaluated {f g : Evaluated → Step Code} (hready : ∀ v {a b : Assembly}, CodeAlike K π pass c d a b →
      (f (.ready v)).Sim K.filled (OnLine K π pass) (CodeAlike K π pass) (g (.ready v)) a b)
    (kind : PatchKind) (blank : List UInt8) (hf : ∀ names, f (.pending names) = pure ((c.addHole kind e).add blank))
    (hg : ∀ names, g (.pending names) = pure ((d.addHole kind e').add blank)) :
    (SpectrumAsm.evalExpr e >>= f).Sim K.filled (OnLine K π pass) (CodeAlike K π pass)
      (SpectrumAsm.evalExpr e' >>= g) a b := by
  refine (h.states.evalExpr he).bind fun v w a b hvw => ?_
  obtain ⟨rfl, rfl, hstates, hkept, hpending⟩ := hvw
  have hholes : ∀ hole ∈ c.holes, a.MayWait K pass hole.2.2 := fun hole hmem => hkept (h.holes hole hmem)
  cases w with
  | ready v => exact hready v ⟨h.code, hstates, hholes⟩
  | pending names =>
    rw [hf, hg]
    refine .pure ⟨congrArg (fun c => (c.addHole kind e').add blank) h.code, hstates, fun hole hmem => ?_⟩
    rcases mem_append.1 hmem with hmem | hmem
    · exact hholes hole hmem
    · rw [mem_singleton.1 hmem]
      exact hpending rfl

theorem addOperand (size : OperandSize) :
    (size.add c e).Sim K.filled (OnLine K π pass) (CodeAlike K π pass) (size.add d e') a b := by
  cases size with
  | byte | word =>
    refine evaluated h he (fun v _ _ h => ?_) _ _ (fun _ => rfl) fun _ => rfl
    exact .ofExcept_bind v.lowWord v.lowWord_filled h.states fun _ _ => .pure (h.add _)

theorem addBranch (opcode : UInt8) :
    (addBranch c opcode e).Sim K.filled (OnLine K π pass) (CodeAlike K π pass) (addBranch d opcode e') a b := by
  refine evaluated h he (fun v a b h => .get_bind ?_) _ _ (fun _ => rfl) fun _ => rfl
  rw [h.states.origin trivial]
  exact .ofExcept_bind v.lowWord v.lowWord_filled h.states fun w _ =>
    .ofExcept_bind (branchByte w a.origin) (branchByte_filled _ _) h.states fun _ _ => .pure (h.add _)

end

theorem emitCode {x y : Step Code} (hxy : x.Sim K.filled (OnLine K π pass) (CodeAlike K π pass) y a b) :
    (x >>= SpectrumAsm.emitCode).Alike K π pass (y >>= SpectrumAsm.emitCode) a b :=
  hxy.bind fun c d a b h => by
    obtain ⟨rfl, hstates, hholes⟩ := h
    exact .of (hstates.emit trivial hholes)

theorem emitCells (h : OnLine K π pass a b) {cells : List Cell}
    (hcells : Instruction.SteadyCells (K.Coded pass) cells) :
    (emitCells cells).Alike K π pass (emitCells cells) a b := by
  have hcoded {e : Expr} (he : K.Coded pass e) : K.Exprs pass e e := ⟨rfl, he.2, fun _ => he.1⟩
  refine emitCode (.foldlM (P := fun c c' => c' = c ∧ c ∈ cells) ?_ ?_ ⟨rfl, h, forall_mem_nil _⟩)
  · exact forall₂_same.2 fun c hc => ⟨rfl, hc⟩
  · rintro c d _ cell a b ⟨rfl, hmem⟩ h
    have hcell := hcells cell hmem
    cases cell with
    | byte x => exact .pure (h.add [x])
    | byteOf e => exact addOperand h (hcoded hcell) .byte
    | wordOf e => exact addOperand h (hcoded hcell) .word
    | branch opcode e => exact addBranch h (hcoded hcell) opcode

variable (h : OnLine K π pass a b)
include h

theorem emitBytes (bytes : List UInt8) : (emitBytes bytes).Alike K π pass (emitBytes bytes) a b :=
  .of (h.emit trivial nofun)

theorem emitValues (size : OperandSize) {es es' : List Expr} (hes : Forall₂ (K.Exprs pass) es es') :
    (emitValues size.add es).Alike K π pass (emitValues size.add es') a b :=
  emitCode (.foldlM hes (fun _ _ _ _ _ _ he h => addOperand h he size) ⟨rfl, h, forall_mem_nil _⟩)

/-! ## Values -/

section
variable (he : K.Exprs pass e e')
include he

theorem evalNow : (evalNow e).Alike K π pass (evalNow e') a b := by
  refine (h.evalExpr he).bind fun v w a b hvw => ?_
  obtain ⟨-, rfl, h, -, -⟩ := hvw
  cases w with
  | ready v => exact .pure ⟨rfl, h⟩
  | pending names => exact .throw rfl h

theorem evalInt : (evalInt e).Alike K π pass (evalInt e') a b :=
  (h.evalNow he).agree_bind fun v _ _ h => .ofExcept v.number v.number_filled h

theorem evalTruth : (evalTruth e).Alike K π pass (evalTruth e') a b := by
  refine (h.evalNow he).agree_bind fun v a b h => ?_
  cases v.truth? with
  | some b => exact .pure ⟨rfl, h⟩
  | none => exact .throw rfl h

theorem evalSize {negative : Fault} (hnegative : negative.isParam = false) :
    (evalSize e negative).Alike K π pass (evalSize e' negative) a b := by
  refine (h.evalNow he).agree_bind fun v a b h => ?_
  cases v.integer? with
  | none => exact .throw rfl h
  | some n =>
    dsimp only
    split
    · exact .throw hnegative h
    · exact .pure ⟨rfl, h⟩

theorem messageOf : (messageOf e).Alike K π pass (messageOf e') a b := by
  by_cases htext : ∃ raw, e = .text raw
  · obtain ⟨raw, rfl⟩ := htext
    rw [eq_of_folded_eq he.folded rfl]
    exact .pure ⟨rfl, h⟩
  · have htext' (raw : String) (hraw : e' = .text raw) : e = .text raw := by
      subst hraw
      exact eq_of_folded_eq he.folded.symm rfl
    unfold SpectrumAsm.messageOf
    split
    · exact absurd ⟨_, rfl⟩ htext
    split
    · exact absurd ⟨_, htext' _ rfl⟩ htext
    refine (h.evalNow he).agree_bind fun v a b h => ?_
    split
    · exact .pure ⟨rfl, h⟩
    · exact .throw rfl h

theorem hexOf : (hexOf e).Alike K π pass (hexOf e') a b := by
  refine (h.evalNow he).agree_bind fun v a b h => ?_
  split
  · split
    · exact .pure ⟨rfl, h⟩
    · exact .throw rfl h
  · exact .throw rfl h

theorem patternOf (bytes : String → List UInt8) : (patternOf bytes e).Alike K π pass (patternOf bytes e') a b := by
  refine (h.evalNow he).agree_bind fun v a b h => ?_
  split
  · split
    · exact .throw rfl h
    · exact .pure ⟨rfl, h⟩
  · exact .throw rfl h

end

/-! ## Data -/

theorem fillCount (count : Int64) (unit : Nat) : (fillCount count unit).Alike K π pass (fillCount count unit) a b := by
  have hsame : b.fillCount count unit = a.fillCount count unit := by
    unfold Assembly.fillCount
    rw [h.stop]
  refine .get_bind ?_
  rw [hsame]
  refine .ofExcept _ (fun fault hfault => ?_) h
  unfold Assembly.fillCount at hfault
  dsimp only at hfault
  split at hfault <;> cases hfault
  rfl

theorem emitFill (count : Int64) (byte : UInt8) : (emitFill count byte).Alike K π pass (emitFill count byte) a b :=
  (h.fillCount count 1).agree_bind fun _ _ _ h => h.emitBytes _

theorem emitSkip {target target' : Expr} (htarget : K.Exprs pass target target') {fill fill' : Option Expr}
    (hfill : Option.Rel (K.Exprs pass) fill fill') :
    (emitSkip target fill).Alike K π pass (emitSkip target' fill') a b := by
  have hskip : (skipOf target fill).Alike K π pass (skipOf target' fill') a b := by
    refine (h.evalInt htarget).agree_bind fun n a b h => .get_bind ?_
    rw [h.address]
    dsimp only
    split
    · exact .throw_bind rfl h
    cases hfill with
    | none => exact .pure ⟨rfl, h⟩
    | some he => exact (h.evalInt he).agree_bind fun _ _ _ h => .pure ⟨rfl, h⟩
  exact hskip.agree_bind fun _ _ _ h => h.emitFill _ _

theorem emitAlign {e e' : Option Expr} (he : Option.Rel (K.Exprs pass) e e') :
    (emitAlign e).Alike K π pass (emitAlign e') a b := by
  cases he
  case' some _ _ he =>
    refine (h.evalInt he).agree_bind fun n a b h => ?_
    split
    case' isFalse => exact .throw_bind rfl h
  all_goals
    simp only [SpectrumAsm.emitAlign, pure_bind]
    refine .get_bind ?_
    rw [h.address]
    exact h.emitBytes _

theorem filePart (name : String) (offset : Nat) (length : Option Nat) :
    (filePart name offset length).Alike K π pass (filePart name offset length) a b := by
  have hpath : b.pathOf name = a.pathOf name := by
    unfold pathOf
    rw [h.setup, h.file trivial]
  refine .get_bind ?_
  rw [hpath, h.setup]
  dsimp only
  split
  · exact .throw rfl h
  split
  · exact .throw_bind rfl h
  split
  · exact .throw_bind rfl h
  · exact .pure ⟨rfl, h⟩

theorem fileOf {file file' : Expr} (hfile : K.Exprs pass file file') {offset offset' length length' : Option Expr}
    (hoffset : Option.Rel (K.Exprs pass) offset offset') (hlength : Option.Rel (K.Exprs pass) length length') :
    (fileOf file offset length).Alike K π pass (fileOf file' offset' length') a b := by
  refine (h.evalNow hfile).agree_bind fun v a b h => ?_
  dsimp only
  split
  · cases hoffset
    case' some _ _ he => refine (h.evalSize he rfl).agree_bind fun offset a b h => ?_
    all_goals
      cases hlength with
      | none => exact h.filePart _ _ _
      | some he => exact (h.evalSize he rfl).agree_bind fun n _ _ h => h.filePart _ _ _
  · exact .throw_bind rfl h

theorem emitFile {file file' : Expr} (hfile : K.Exprs pass file file') {offset offset' length length' : Option Expr}
    (hoffset : Option.Rel (K.Exprs pass) offset offset') (hlength : Option.Rel (K.Exprs pass) length length') :
    (emitFile file offset length).Alike K π pass (emitFile file' offset' length') a b := by
  refine (h.fileOf hfile hoffset hlength).agree_bind fun bytes a b h => .get_bind ?_
  rw [h.address]
  split
  · exact .throw_bind rfl h
  · exact h.emitBytes _

theorem data {p : Pragma} (hp : p.emitsData = true) (hexprs : ∀ e ∈ p.exprs, K.Exprs pass e (e.renamed K.case))
    (label label' : Option String) : (runPragma label p).Alike K π pass (runPragma label' (p.renamed K.case)) a b := by
  have hvalues (es : List Expr) (hes : ∀ e ∈ es, K.Exprs pass e (e.renamed K.case)) :
      Forall₂ (K.Exprs pass) es (es.map (renamed K.case)) :=
    forall₂_map_right_iff.2 (forall₂_same.2 hes)
  have hemit (bytes : List UInt8) {a b : Assembly} (h : OnLine K π pass a b) := h.emitBytes bytes
  cases p with
  | defb es => exact h.emitValues .byte (hvalues es hexprs)
  | defw es => exact h.emitValues .word (hvalues es hexprs)
  | defm e | defn e | defc e =>
    exact (h.messageOf (hexprs e (by simp [exprs]))).agree_bind fun _ _ _ h => hemit _ h
  | defh e => exact (h.hexOf (hexprs e (by simp [exprs]))).agree_bind fun _ _ _ h => hemit _ h
  | defs count =>
    exact (h.evalInt (hexprs count (by simp [exprs]))).agree_bind fun _ _ _ h => h.emitFill _ _
  | fillb count value | fillw count value =>
    exact (h.evalInt (hexprs count (by simp [exprs]))).agree_bind fun _ _ _ h =>
      (h.fillCount _ _).agree_bind fun _ _ _ h =>
        (h.evalInt (hexprs value (by simp [exprs]))).agree_bind fun _ _ _ h => hemit _ h
  | defg e | defgx e =>
    exact (h.patternOf (hexprs e (by simp [exprs])) _).agree_bind fun _ _ _ h => hemit _ h
  | _ => cases hp

theorem emitOperation (m : Cpu.Mnemonic) {operands : List Operand}
    (hoperands : ∀ o ∈ operands, o.SteadyIn (K.Coded pass)) :
    (emitOperation m operands).Alike K π pass (emitOperation m operands) a b := by
  have hmodel : b.effectiveModel = a.effectiveModel := by
    unfold effectiveModel
    rw [h.model, h.setup]
  have hsteady := Instruction.encode_steady hoperands a.effectiveModel.hasNextOps m
  refine .get_bind ?_
  rw [hmodel]
  dsimp only
  generalize Instruction.encode _ m operands = x at hsteady ⊢
  refine .ofExcept_bind x (fun fault hx => ?_) h fun instruction hx => ?_
  · subst hx
    exact hsteady
  subst hx
  cases instruction with
  | cells cells => exact h.emitCells hsteady
  | choose number cells =>
    obtain ⟨hnumber, hcells⟩ := hsteady
    refine (h.evalInt ⟨rfl, hnumber.2, fun _ => hnumber.1⟩).agree_bind fun n a b h => ?_
    have hcode := hcells n
    refine .ofExcept_bind (cells n) (fun fault hx => ?_) h fun cs hx => ?_
    · rw [hx] at hcode
      exact hcode
    · rw [hx] at hcode
      exact h.emitCells hcode

/-! ## Bounds of loops -/

theorem checkBounds (first last step : Value) :
    (checkBounds first last step).Alike K π pass (checkBounds first last step) a b := by
  unfold SpectrumAsm.checkBounds
  dsimp only
  split
  · exact .throw_bind rfl h
  split
  · exact .throw_bind rfl h
  · exact .pure ⟨rfl, h⟩

theorem evalBounds {first first' last last' : Expr} (hfirst : K.Exprs pass first first')
    (hlast : K.Exprs pass last last') {step step' : Option Expr} (hstep : Option.Rel (K.Exprs pass) step step') :
    (evalBounds first last step).Alike K π pass (evalBounds first' last' step') a b := by
  refine (h.evalNow hfirst).agree_bind fun first a b h => ?_
  refine (h.evalNow hlast).agree_bind fun last a b h => ?_
  cases hstep with
  | none => exact h.checkBounds _ _ _
  | some he => exact (h.evalNow he).agree_bind fun step _ _ h => h.checkBounds first last step

end OnLine

theorem reporting_alike {x y : Step Unit} (h : x.Alike K π pass y a b) :
    (reporting x).Alike K π pass (reporting y) a b :=
  ⟨rfl, h.reporting fun _ _ _ _ hfault h => h.report hfault⟩

/-! ## Pragmas -/

namespace OnLine

variable (h : OnLine K π none a b)
include h

section
variable (he : K.Exprs none e e') (label : Option String)
include he

theorem setEntry (exported : Bool) : (setEntry exported e).Alike K π none (setEntry exported e') a b := by
  have htop : b.symbols.top?.isSome = a.symbols.top?.isSome := rel_isSome h.symbols.top
  refine .get_bind ?_
  dsimp only
  rw [htop]
  split
  · exact .throw_bind rfl h
  refine (h.evalExpr he).bind fun v w a b hvw => ?_
  obtain ⟨rfl, rfl, h, -, hpending⟩ := hvw
  cases w with
  | ready v =>
    refine .ofExcept_bind v.lowWord v.lowWord_filled h fun w _ => .modify ?_
    cases exported with
    | true => exact { h with exportEntry := rfl, held := held_none }
    | false => exact { h with entry := rfl, held := held_none }
  | pending names =>
    refine .modify ?_
    rw [h.lastSegment]
    exact h.addPatch trivial _ _ _ .none (hpending rfl)

theorem setDisplacement : (setDisplacement e).Alike K π none (setDisplacement e') a b := by
  refine (h.evalInt he).agree_bind fun n a b h => .modify ?_
  have hopen := h.openSegment
  dsimp only [lastSegment]
  rw [hopen.segments]
  exact hopen.setSegments rfl

theorem setOrigin : (setOrigin e label).Alike K π none (setOrigin e' (label.map K.case)) a b := by
  refine (h.evalInt he).agree_bind fun n a b h => .modify ?_
  have hmoved : OnLine K π none (a.setOrigin (lowWord n)) (b.setOrigin (lowWord n)) := by
    unfold Assembly.setOrigin lastSegment
    rw [h.segments]
    split
    · split <;> exact h.setSegments rfl
    · exact h.setSegments rfl
  cases label with
  | none => exact hmoved
  | some label => exact hmoved.bindLabel (K.upcase_case label) _

theorem defineEqu : (defineEqu e label).Alike K π none (defineEqu e' (label.map K.case)) a b := by
  cases label with
  | none => exact .throw rfl h
  | some label =>
    refine (h.evalExpr he).bind fun v w a b hvw => ?_
    obtain ⟨rfl, rfl, h, -, hpending⟩ := hvw
    refine (Step.Sim.of (h.define (K.upcase_case label) .equ _)).bind fun slot slot' a b hs => ?_
    obtain ⟨hslot, h⟩ := hs
    cases w with
    | ready v => exact .pure ⟨rfl, h⟩
    | pending names =>
      refine .modify ?_
      rw [h.lastSegment, K.upcase_case]
      exact h.addPatch trivial _ _ _ (.some ⟨hslot, rfl⟩) ⟨(hpending rfl).params, fun hp => absurd rfl hp⟩

theorem setVariable : (setVariable e label).Alike K π none (setVariable e' (label.map K.case)) a b := by
  cases label with
  | none => exact .throw rfl h
  | some label => exact (h.evalNow he).agree_bind fun v _ _ h => .of (h.setVar (K.upcase_case label) v)

end

theorem setModel (name : String) : (setModel name).Alike K π none (setModel (K.case name)) a b := by
  refine .get_bind ?_
  dsimp only
  rw [h.model]
  split
  · exact .throw_bind rfl h
  -- both names are read like the one in capital letters
  rcases ignoresCase_model name with ⟨model, hname, hupper⟩ | ⟨u, u', hname, hupper⟩ <;>
    rcases ignoresCase_model (K.case name) with ⟨model', hname', hupper'⟩ | ⟨v, v', hname', hupper'⟩ <;>
    rw [K.upcase_case, hupper] at hupper' <;> cases hupper'
  · rw [hname, hname']
    exact .modify { h with model := rfl, held := held_none }
  · rw [hname, hname']
    exact .throw rfl h

theorem addTrace (hex : Bool) {es es' : List Expr} (hes : Forall₂ (K.Exprs none) es es') :
    (addTrace hex es).Alike K π none (addTrace hex es') a b := by
  refine (Step.Sim.mapM hes (fun e e' a b he h => ?_) h).agree_bind fun shown a b h => .modify ?_
  · exact (OnLine.evalNow h he).agree_bind fun v _ _ h => .pure ⟨rfl, h⟩
  · rw [h.trace]
    exact { h with trace := rfl, held := held_none }

theorem seedRandom {e e' : Option Expr} (he : Option.Rel (K.Exprs none) e e') :
    (seedRandom e).Alike K π none (seedRandom e') a b := by
  cases he with
  | none =>
    refine .modify { h with random := ?_, readings := congrArg (· + 1) h.readings, held := held_none }
    rw [h.setup, h.readings]
  | some he => exact (h.evalInt he).agree_bind fun n _ _ h => .modify { h with random := rfl, held := held_none }

/-- A pragma does the same in another case. -/
theorem runPragma {p : Pragma} (hfilled : K.filled → ∀ e ∈ p.exprs, e.params = []) (label : Option String) :
    (runPragma label p).Alike K π none (runPragma (label.map K.case) (p.renamed K.case)) a b := by
  have hexprs (e : Expr) (he : e ∈ p.exprs) : K.Exprs none e (e.renamed K.case) :=
    K.exprs_renamed fun hf => hfilled hf e he
  have hrel (e : Option Expr) (he : ∀ x ∈ e, K.Exprs none x (x.renamed K.case)) :
      Option.Rel (K.Exprs none) e (e.map (renamed K.case)) := by
    cases e with
    | none => exact .none
    | some e => exact .some (he e rfl)
  cases hdata : p.emitsData with
  | true => exact h.data hdata hexprs label _
  | false =>
    cases p with
    | model name => exact h.setModel name
    | org e => exact h.setOrigin (hexprs e (by simp [exprs])) label
    | ent e => exact h.setEntry (hexprs e (by simp [exprs])) false
    | xent e => exact h.setEntry (hexprs e (by simp [exprs])) true
    | disp e => exact h.setDisplacement (hexprs e (by simp [exprs]))
    | equ e => exact h.defineEqu (hexprs e (by simp [exprs])) label
    | var e => exact h.setVariable (hexprs e (by simp [exprs])) label
    | skip target fill =>
      exact h.emitSkip (hexprs target (by simp [exprs]))
        (hrel fill fun x hx => hexprs x (by simp_all [exprs]))
    | align e => exact h.emitAlign (hrel e fun x hx => hexprs x (by simp_all [exprs]))
    | trace hex es => exact h.addTrace hex (forall₂_map_right_iff.2 (forall₂_same.2 hexprs))
    | rndseed e => exact h.seedRandom (hrel e fun x hx => hexprs x (by simp_all [exprs]))
    | error e => exact (h.evalNow (hexprs e (by simp [exprs]))).agree_bind fun _ _ _ h => .throw rfl h
    | includebin file offset length =>
      exact h.emitFile (hexprs file (by simp [exprs]))
        (hrel offset fun x hx => hexprs x (by simp_all [exprs]))
        (hrel length fun x hx => hexprs x (by simp_all [exprs]))
    | _ => cases hdata

end OnLine

end SpectrumAsm
