/-
Syntax with names in another case.

A line is renamed by changing the case of its label, the names it defines or invokes, and the parameters of
macros; all other names are put into one case when a line is read. A line is folded by putting its names into
capital letters.
-/
import SpectrumAsm.Proofs.RecasedTokens
import SpectrumAsm.Proofs.Substitution

namespace SpectrumAsm

open List Text Statement

variable {f : String → String}

/-! ## Other names -/

namespace Expr

mutual
/-- An expression with other names for its macro parameters. All other names in it are in one case. -/
def renamed (f : String → String) : Expr → Expr
  | param name => param (f name)
  | unary op arg => unary op (arg.renamed f)
  | binary op left right => binary op (left.renamed f) (right.renamed f)
  | cond test yes no => cond (test.renamed f) (yes.renamed f) (no.renamed f)
  | call name args => call name (renamedAll f args)
  | e => e
def renamedAll (f : String → String) : List Expr → List Expr
  | [] => []
  | e :: es => e.renamed f :: renamedAll f es
end

abbrev folded : Expr → Expr := renamed upcase

theorem renamedAll_eq_map (f : String → String) (es : List Expr) : renamedAll f es = es.map (renamed f) := by
  induction es with
  | nil => rfl
  | cons e es ih => rw [renamedAll, ih, map_cons]

end Expr

def Operand.renamed (f : String → String) : Operand → Operand
  | .param name => .param (f name)
  | o => o.mapExpr (Expr.renamed f)

def Pragma.renamed (f : String → String) : Pragma → Pragma
  | .model name => .model (f name)
  | p => p.mapExprs (Expr.renamed f)

def Statement.renamed (f : String → String) : Statement → Statement
  | .forEach var first last step =>
    .forEach (f var) (first.renamed f) (last.renamed f) (step.map (Expr.renamed f))
  | .macroDef params => .macroDef (params.map f)
  | .locals names => .locals (names.map f)
  | .moduleDef name => .moduleDef (name.map f)
  | s => s.mapExprs (Expr.renamed f)

/-- A directive with other names; the name of a file stays as it is. -/
def Directive.renamed (f : String → String) : Directive → Directive
  | .define name => .define (f name)
  | .undef name => .undef (f name)
  | .ifDef name => .ifDef (f name)
  | .ifNotDef name => .ifNotDef (f name)
  | .ifTrue e => .ifTrue (e.renamed f)
  | .ifModel name => .ifModel (f name)
  | .ifNotModel name => .ifNotModel (f name)
  | d => d

def Stmt.renamed (f : String → String) : Stmt → Stmt
  | .op m os => .op m (os.map (Operand.renamed f))
  | .pragma p => .pragma (p.renamed f)
  | .statement s => .statement (s.renamed f)
  | .directive d => .directive (d.renamed f)
  | .invoke name args => .invoke (f name) (args.map (Operand.renamed f))
  | .field name p => .field (name.map f) (p.renamed f)

/-! Names in capital letters. -/

abbrev Operand.folded : Operand → Operand := Operand.renamed upcase
abbrev Pragma.folded : Pragma → Pragma := Pragma.renamed upcase
abbrev Statement.folded : Statement → Statement := renamed upcase
abbrev Directive.folded : Directive → Directive := Directive.renamed upcase
abbrev Stmt.folded : Stmt → Stmt := Stmt.renamed upcase

def SourceLine.folded (line : SourceLine) : SourceLine := { line with
    label := line.label.map upcase
    stmt := line.stmt.map Stmt.folded
    comment := line.comment.map upcase }

/-! ## Expressions -/

namespace Expr

theorem renamed_eq_replace (f : String → String) (e : Expr) :
    e.renamed f = e.replace (fun name => param (f name)) id := by
  induction e using parts_induction with
  | step e ih => cases e <;> simp_all [parts, renamed, replace, renamedAll_eq_map]

theorem params_renamed (f : String → String) (e : Expr) : (e.renamed f).params = e.params.map f := by
  rw [renamed_eq_replace, params_replace]
  exact (map_eq_flatMap ..).symm

theorem symbols_renamed (f : String → String) (e : Expr) : (e.renamed f).symbols = e.symbols := by
  induction e using parts_induction with
  | step e ih =>
    cases e with
    | call name args =>
      simpa [parts, renamed, symbols, renamedAll_eq_map, symbolsAll_eq, flatMap_map] using flatMap_congr ih
    | _ => simp_all [parts, renamed, symbols]

theorem renamed_id (e : Expr) : e.renamed id = e := by
  induction e using parts_induction with
  | step e ih =>
    cases e with
    | call name args => simpa [parts, renamed, renamedAll_eq_map] using map_congr_left ih
    | _ => simp_all [parts, renamed]

theorem renamed_of_params {e : Expr} (h : e.params = []) : e.renamed f = e := by
  induction e using parts_induction with
  | step e ih =>
    cases e with
    | call name args =>
      have hall : ∀ arg ∈ args, arg.params = [] := by simpa [params, paramsAll_eq] using h
      simpa [parts, renamed, renamedAll_eq_map] using map_congr_left fun arg harg => ih arg harg (hall arg harg)
    | _ => simp_all [parts, renamed, params]

theorem eq_of_folded_eq {e e' : Expr} (h : e'.folded = e.folded) (hparams : e.params = []) : e' = e := by
  have hsame := congrArg params h
  rw [params_renamed, params_renamed, hparams, map_nil, map_eq_nil_iff] at hsame
  exact (renamed_of_params hsame).symm.trans (h.trans (renamed_of_params hparams))

theorem evaluate_recased {e e' : Expr} (h : e'.folded = e.folded) (env : Env) (random : Random) :
    ((e'.evaluate env).run.run random).map (Except.mapError Fault.ofExpr) id =
      ((e.evaluate env).run.run random).map (Except.mapError Fault.ofExpr) id := by
  cases hparams : e.params with
  | nil => rw [eq_of_folded_eq h hparams]
  | cons name names =>
    have hsame := congrArg params h
    rw [params_renamed, params_renamed, hparams, map_cons] at hsame
    obtain ⟨name', names', hparams', -⟩ := map_eq_cons_iff.1 hsame
    rw [evaluate_param hparams, evaluate_param hparams']
    rfl

end Expr

/-! ## Operands, pragmas and statements -/

theorem Pragma.setsLabel_renamed (p : Pragma) : (p.renamed f).setsLabel = p.setsLabel := by cases p <;> rfl

theorem Pragma.emitsData_renamed (p : Pragma) : (p.renamed f).emitsData = p.emitsData := by cases p <;> rfl

theorem Pragma.exprs_renamed (p : Pragma) : (p.renamed f).exprs = p.exprs.map (Expr.renamed f) := by
  cases p <;> simp [Pragma.renamed, Pragma.mapExprs, Pragma.exprs, Option.toList_map]

theorem Statement.exprs_renamed (s : Statement) : (s.renamed f).exprs = s.exprs.map (Expr.renamed f) := by
  cases s <;> simp [renamed, mapExprs, exprs, Option.toList_map]

theorem Statement.opens_renamed (s : Statement) : (s.renamed f).opens = s.opens := by cases s <;> rfl

theorem Statement.closes_renamed (s : Statement) : (s.renamed f).closes = s.closes := by cases s <;> rfl

theorem Operand.renamed_eq {o : Operand} (ho : ∀ name, o ≠ .param name) : o.renamed f = o.mapExpr (Expr.renamed f) := by
  cases o with
  | param name => exact absurd rfl (ho name)
  | _ => rfl

namespace Stmt

theorem exprs_renamed (s : Stmt) : (s.renamed f).exprs = s.exprs.map (Expr.renamed f) := by
  have hoperands (os : List Operand) : (os.map (Operand.renamed f)).filterMap Operand.expr? =
      (os.filterMap Operand.expr?).map (Expr.renamed f) := by
    rw [filterMap_map, map_filterMap]
    refine filterMap_congr fun o _ => ?_
    cases o with
    | indexed reg displacement => cases displacement <;> rfl
    | _ => rfl
  cases s with
  | op m os | invoke name os => exact hoperands os
  | pragma p | field name p => exact p.exprs_renamed
  | statement s => exact s.exprs_renamed
  | directive d => rfl

theorem operandParams_renamed (s : Stmt) : (s.renamed f).operandParams = s.operandParams.map f := by
  have hoperands : (s.renamed f).operands = s.operands.map (Operand.renamed f) := by cases s <;> rfl
  unfold operandParams
  rw [hoperands, filterMap_map, map_filterMap]
  refine filterMap_congr fun o _ => ?_
  cases o with
  | indexed reg displacement => cases displacement <;> rfl
  | _ => rfl

theorem hasParam_renamed (s : Stmt) : (s.renamed f).hasParam = s.hasParam := by
  unfold hasParam
  simp [operandParams_renamed, exprs_renamed, Function.comp_def, Expr.params_renamed]

theorem keepsInstance_renamed (s : Stmt) : (s.renamed f).keepsInstance = s.keepsInstance := by cases s <;> rfl

theorem renamed_id (s : Stmt) : s.renamed id = s := by
  have hexpr : Expr.renamed id = id := funext Expr.renamed_id
  have hoperand (o : Operand) : o.renamed id = o := by
    have hmap := (Operand.mapExpr_congr (o := o) fun e _ => e.renamed_id).trans o.mapExpr_id
    cases o with
    | param name => rfl
    | _ => exact hmap
  have hpragma (p : Pragma) : p.renamed id = p := by cases p <;> simp [Pragma.renamed, Pragma.mapExprs, hexpr]
  have hoperands (os : List Operand) : os.map (Operand.renamed id) = os :=
    (map_congr_left fun o _ => hoperand o).trans (map_id os)
  cases s with
  | op m os => exact congrArg (op m) (hoperands os)
  | invoke name os => exact congrArg (invoke name) (hoperands os)
  | pragma p => exact congrArg pragma (hpragma p)
  | field name p => simp [renamed, hpragma]
  | statement s => cases s <;> simp [renamed, Statement.renamed, Statement.mapExprs, hexpr]
  | directive d => cases d <;> simp [renamed, Directive.renamed, hexpr]

theorem renamed_operands {s : Stmt} (h : s.hasParam = false) : ∀ o ∈ s.operands, o.renamed f = o := by
  obtain ⟨hoperands, hexprs⟩ := hasParam_eq_false.1 h
  intro o ho
  rw [Operand.renamed_eq (hoperands o ho)]
  refine (Operand.mapExpr_congr fun e he => Expr.renamed_of_params (hexprs e ?_)).trans (Operand.mapExpr_id o)
  cases s with
  | op m os | invoke name os => exact mem_filterMap.2 ⟨o, ho, he⟩
  | _ => cases ho

end Stmt

def LineRole.renamed (f : String → String) : LineRole → LineRole
  | .opens block s => .opens block (s.renamed f)
  | role => role

/-! ## Names that differ in case -/

section
variable (hf : ∀ name, upcase (f name) = upcase name)
include hf

theorem Text.sameName_renamed (p q : String) : sameName (f p) q = sameName p q ∧ sameName p (f q) = sameName p q := by
  constructor
  · rw [← sameName_upcase_left, hf, sameName_upcase_left]
  · rw [← sameName_upcase_right, hf, sameName_upcase_right]

theorem Expr.folded_renamed (e : Expr) : (e.renamed f).folded = e.folded := by
  simp [Expr.folded, Expr.renamed_eq_replace, Expr.replace_replace, Expr.replace, hf]

theorem Expr.mentions_renamed (e : Expr) : (e.renamed f).mentions.map upcase = e.mentions.map upcase := by
  induction e using Expr.parts_induction with
  | step e ih =>
    cases e with
    | call name args =>
      simpa [parts, renamed, mentions, renamedAll_eq_map, mentionsAll_eq, flatMap_map, map_flatMap] using
        flatMap_congr ih
    | _ => simp_all [parts, renamed, mentions]

theorem Stmt.mentions_renamed (s : Stmt) : (s.renamed f).mentions.map upcase = s.mentions.map upcase := by
  unfold mentions
  simp [operandParams_renamed, exprs_renamed, map_flatMap, flatMap_map, Function.comp_def, hf, Expr.mentions_renamed hf]

/-! ## Macros -/

theorem repeatedParam?_renamed (seen ps : List String) :
    repeatedParam? (seen.map f) (ps.map f) = (repeatedParam? seen ps).map f := by
  induction ps generalizing seen with
  | nil => rfl
  | cons p ps ih =>
    simp only [map_cons, repeatedParam?, any_map, Function.comp_def, sameName_renamed hf]
    split
    · rfl
    · exact ih (p :: seen)

end

namespace Bindings

/-- Other names for the parameters of a macro, with the same arguments. -/
def renamed (f : String → String) (b : Bindings) : Bindings := ⟨b.params.map f, b.args⟩

variable {b : Bindings} (hf : ∀ name, upcase (f name) = upcase name)
include hf

theorem get_renamed (name : String) :
    (b.renamed f).get name = b.get name ∧ (b.renamed f).get (f name) = b.get name := by
  unfold get renamed
  simp [Function.comp_def, sameName_renamed hf]

theorem fillText_renamed : (b.renamed f).fillText = b.fillText := by
  funext raw
  unfold fillText textOf
  simp [get_renamed hf]

theorem substitute_renamed (e : Expr) : (b.renamed f).substitute (e.renamed f) = b.substitute e := by
  have hexprOf (name : String) : (b.renamed f).exprOf (f name) = b.exprOf name := by
    unfold exprOf
    rw [(get_renamed hf name).2]
  have hinsert (e : Expr) : (b.renamed f).insert e = b.insert e := by
    unfold insert
    split
    · rfl
    · rw [refill_eq_replace, refill_eq_replace, fillText_renamed hf]
  simp [substitute_eq_replace, Expr.renamed_eq_replace, Expr.replace_replace, Expr.replace, hexprOf, hinsert,
    fillText_renamed hf]

/-- Lines in any case become the same, up to case, if the arguments bring no parameters into them. -/
theorem substituteStmt_renamed {invoked : String} (hargs : (Stmt.invoke invoked b.args).hasParam = false) (s : Stmt) :
    (b.renamed f).substituteStmt (s.renamed f) = (b.substituteStmt s).renamed f := by
  have hexpr (e : Expr) : (b.renamed f).substitute (e.renamed f) = (b.substitute e).renamed f := by
    rw [substitute_renamed hf, Expr.renamed_of_params (params_substitute hargs e)]
  have hmap {o : Operand} (ho : ∀ name, o ≠ .param name) :
      (o.renamed f).mapExpr (b.renamed f).substitute = (o.mapExpr b.substitute).renamed f := by
    rw [Operand.renamed_eq ho, Operand.renamed_eq (Operand.mapExpr_ne_param ho _), Operand.mapExpr_mapExpr,
      Operand.mapExpr_mapExpr]
    exact Operand.mapExpr_congr fun e _ => hexpr e
  have hoperand (o : Operand) :
      ((b.renamed f).substituteOperand (o.renamed f)).mapExpr (b.renamed f).substitute =
        ((b.substituteOperand o).mapExpr b.substitute).renamed f := by
    cases o with
    | param name =>
      have hget : (b.get name).renamed f = b.get name := by
        rcases b.get_mem name with h | h
        · rw [h]
          rfl
        · exact Stmt.renamed_operands hargs _ h
      show ((b.renamed f).get (f name)).mapExpr _ = ((b.get name).mapExpr _).renamed f
      rw [(get_renamed hf name).2, ← hmap (get_filled hargs name).1, hget]
    | memory e =>
      cases e with
      | param name =>
        show ((b.renamed f).substituteOperand (.memory (.param (f name)))).mapExpr _ = _
        rw [substituteOperand, substituteOperand, (get_renamed hf name).2]
        split
        · rfl
        · rfl
        · rfl
        · exact hmap (o := .memory (.param name)) nofun
      | _ => exact hmap (o := .memory _) nofun
    | expr e => exact hmap (o := .expr e) nofun
    | indexed reg displacement =>
      have := hmap (o := .indexed reg displacement) nofun
      cases displacement <;> exact this
    | _ => rfl
  have hpragma (p : Pragma) : (p.renamed f).mapExprs (b.renamed f).substitute =
      (p.mapExprs b.substitute).renamed f := by
    cases p <;> simp [Pragma.renamed, Pragma.mapExprs, hexpr, Function.comp_def]
  have hoperands (os : List Operand) :
      ((os.map (Operand.renamed f)).map (b.renamed f).substituteOperand).map
          (Operand.mapExpr (b.renamed f).substitute) =
        ((os.map b.substituteOperand).map (Operand.mapExpr b.substitute)).map (Operand.renamed f) := by
    simp only [map_map]
    exact map_congr_left fun o _ => hoperand o
  cases s with
  | op m os => exact congrArg (Stmt.op m) (hoperands os)
  | invoke name os => exact congrArg (Stmt.invoke _) (hoperands os)
  | pragma p => exact congrArg Stmt.pragma (hpragma p)
  | field name p => exact congrArg (Stmt.field _) (hpragma p)
  | statement s =>
    refine congrArg Stmt.statement ?_
    cases s <;> simp [Statement.renamed, mapExprs, hexpr, Function.comp_def]
  | directive d => rfl

end Bindings

end SpectrumAsm
