/-
Arguments in the place of parameters.

Filling literals, putting arguments into an expression and writing its names in capital letters leave all but
parameters and literals as it is (`Expr.replace`), and two such changes one after the other are one. Arguments
without parameters leave none.
-/
import Mathlib.Data.List.Forall2
import SpectrumAsm.Assembly.Walk
import SpectrumAsm.Proofs.Evaluating

namespace SpectrumAsm

open List SpectrumAsm.Expr Operand

namespace Expr

theorem mentionsAll_eq (es : List Expr) : mentionsAll es = es.flatMap mentions := by
  induction es with
  | nil => rfl
  | cons e es ih => rw [mentionsAll, ih, flatMap_cons]

/-- An expression with expressions in the place of its parameters and other texts in its literals. -/
def replace (param : String → Expr) (text : String → String) : Expr → Expr
  | .param name => param name
  | .text raw => .text (text raw)
  | .unary op arg => .unary op (arg.replace param text)
  | .binary op left right => .binary op (left.replace param text) (right.replace param text)
  | .cond test yes no => .cond (test.replace param text) (yes.replace param text) (no.replace param text)
  | .call name args => .call name (args.map (replace param text))
  | e => e

theorem replace_replace (p q : String → Expr) (f g : String → String) (e : Expr) :
    (e.replace p f).replace q g = e.replace (fun name => (p name).replace q g) (g ∘ f) := by
  induction e using parts_induction with
  | step e ih => cases e <;> simp_all [parts, replace]

end Expr

namespace Bindings

variable (b : Bindings)

theorem get_mem (name : String) : b.get name = .expr (.text "") ∨ b.get name ∈ b.args := by
  unfold get
  cases hfound : (b.params.findIdx? (Text.sameName · name)).bind fun i => b.args[i]? with
  | none => exact .inl rfl
  | some o =>
    obtain ⟨i, -, hi⟩ := Option.bind_eq_some_iff.1 hfound
    exact .inr (mem_of_getElem? hi)

theorem refillAll_eq (es : List Expr) : b.refillAll es = es.map b.refill := by
  induction es with
  | nil => rfl
  | cons e es ih => rw [refillAll, ih, map_cons]

theorem substituteAll_eq (es : List Expr) : b.substituteAll es = es.map b.substitute := by
  induction es with
  | nil => rfl
  | cons e es ih => rw [substituteAll, ih, map_cons]

theorem refill_eq_replace (e : Expr) : b.refill e = e.replace .param b.fillText := by
  induction e using parts_induction with
  | step e ih => cases e <;> simp_all [parts, refill, Expr.replace, refillAll_eq]

theorem substitute_eq_replace (e : Expr) :
    b.substitute e = e.replace (fun name => b.insert (b.exprOf name)) b.fillText := by
  induction e using parts_induction with
  | step e ih => cases e <;> simp_all [parts, substitute, Expr.replace, substituteAll_eq]

end Bindings

theorem unknownParams_eq_nil {params : List String} {lines : List SourceLine} : unknownParams params lines = [] ↔
    ∀ l ∈ lines, ∀ s, l.stmt = some s → ∀ p ∈ s.mentions, (params.any (Text.sameName · p)) = true := by
  unfold unknownParams
  rw [flatMap_eq_nil_iff]
  refine forall₂_congr fun l _ => ?_
  cases hs : l.stmt with
  | none => simp
  | some s => simp

/-! ## No parameters are left -/

theorem Expr.params_replace (p : String → Expr) (f : String → String) (e : Expr) :
    (e.replace p f).params = e.params.flatMap fun name => (p name).params := by
  induction e using parts_induction with
  | step e ih =>
    cases e with
    | call name args =>
      simpa [parts, Expr.replace, params, paramsAll_eq, flatMap_map, flatMap_assoc] using
        flatMap_congr ih
    | _ => simp_all [parts, Expr.replace, params]

theorem Pragma.exprs_mapExprs (f : Expr → Expr) (p : Pragma) : (p.mapExprs f).exprs = p.exprs.map f := by
  cases p <;> simp [Pragma.mapExprs, Pragma.exprs, Option.toList_map]

theorem Statement.exprs_mapExprs (f : Expr → Expr) (s : Statement) : (s.mapExprs f).exprs = s.exprs.map f := by
  cases s <;> simp [Statement.mapExprs, Statement.exprs, Option.toList_map]

theorem Operand.expr?_mapExpr (f : Expr → Expr) (o : Operand) : (o.mapExpr f).expr? = o.expr?.map f := by
  cases o with
  | indexed reg displacement => cases displacement <;> rfl
  | _ => rfl

theorem Operand.mapExpr_congr {f g : Expr → Expr} {o : Operand} (h : ∀ e, o.expr? = some e → f e = g e) :
    o.mapExpr f = o.mapExpr g := by
  cases o with
  | memory e => exact congrArg memory (h e rfl)
  | expr e => exact congrArg expr (h e rfl)
  | indexed reg displacement =>
    obtain _ | ⟨sign, e⟩ := displacement
    · rfl
    · exact congrArg (fun e => indexed reg (some (sign, e))) (h e rfl)
  | _ => rfl

theorem Operand.mapExpr_mapExpr (f g : Expr → Expr) (o : Operand) : (o.mapExpr f).mapExpr g = o.mapExpr (g ∘ f) := by
  cases o with
  | indexed reg displacement => cases displacement <;> rfl
  | _ => rfl

theorem Operand.mapExpr_id (o : Operand) : o.mapExpr id = o := by
  cases o with
  | indexed reg displacement => cases displacement <;> rfl
  | _ => rfl

theorem Operand.mapExpr_ne_param {o : Operand} (ho : ∀ name, o ≠ .param name) (f : Expr → Expr) (name : String) :
    o.mapExpr f ≠ .param name := by
  cases o with
  | param name => exact absurd rfl (ho name)
  | indexed reg displacement => cases displacement <;> nofun
  | _ => nofun

theorem Stmt.exprs_mapExprs (f : Expr → Expr) (s : Stmt) : (s.mapExprs f).exprs = s.exprs.map f := by
  have hoperands (os : List Operand) : (os.map (mapExpr f)).filterMap expr? =
      (os.filterMap expr?).map f := by
    rw [filterMap_map, map_filterMap]
    exact filterMap_congr fun o _ => o.expr?_mapExpr f
  cases s with
  | op m os | invoke name os => exact hoperands os
  | pragma p | field name p => exact p.exprs_mapExprs f
  | statement s => exact s.exprs_mapExprs f
  | directive d => rfl

theorem Stmt.hasParam_eq_false {s : Stmt} :
    s.hasParam = false ↔ (∀ o ∈ s.operands, ∀ name, o ≠ .param name) ∧ ∀ e ∈ s.exprs, e.params = [] := by
  have hoperands : s.operandParams = [] ↔ ∀ o ∈ s.operands, ∀ name, o ≠ .param name := by
    unfold Stmt.operandParams
    rw [filterMap_eq_nil_iff]
    refine forall₂_congr fun o _ => ?_
    cases o <;> simp
  simp [Stmt.hasParam, hoperands]

namespace Bindings

variable {b : Bindings} {invoked : String} (hargs : (Stmt.invoke invoked b.args).hasParam = false)
include hargs

theorem get_filled (name : String) :
    (∀ param, b.get name ≠ .param param) ∧ ∀ e, (b.get name).expr? = some e → e.params = [] := by
  obtain ⟨hoperands, hexprs⟩ := Stmt.hasParam_eq_false.1 hargs
  rcases b.get_mem name with h | h
  · rw [h]
    exact ⟨nofun, fun e he => by cases he; rfl⟩
  · exact ⟨hoperands _ h, fun e he => hexprs e (mem_filterMap.2 ⟨_, h, he⟩)⟩

theorem params_substitute (e : Expr) : (b.substitute e).params = [] := by
  have hexprOf (name : String) : (b.exprOf name).params = [] := by
    have hget := (b.get_filled hargs name).2
    unfold exprOf
    generalize b.get name = o at hget
    cases o with
    | expr e | memory e => exact hget e rfl
    | _ => rfl
  have hrefill (e : Expr) : (b.refill e).params = e.params := by
    rw [refill_eq_replace, params_replace]
    simp [Expr.params]
  have hinsert (name : String) : (b.insert (b.exprOf name)).params = [] := by
    unfold insert
    split
    · rfl
    · rw [hrefill, hexprOf]
  rw [substitute_eq_replace, params_replace]
  simp [hinsert]

theorem hasParam_substituteStmt (s : Stmt) : (b.substituteStmt s).hasParam = false := by
  have hoperand (o : Operand) : ∀ name, b.substituteOperand o ≠ .param name := by
    unfold substituteOperand
    split
    · exact (b.get_filled hargs _).1
    · split <;> nofun
    · next hparam _ => exact fun name h => hparam name h
  refine Stmt.hasParam_eq_false.2 ⟨?_, fun e he => ?_⟩
  · have hoperands (os : List Operand) : ∀ o ∈ (os.map b.substituteOperand).map (mapExpr b.substitute),
        ∀ name, o ≠ .param name := by
      intro o ho
      rw [map_map] at ho
      obtain ⟨o', -, rfl⟩ := mem_map.1 ho
      exact mapExpr_ne_param (hoperand o') _
    cases s with
    | op m os | invoke name os => exact hoperands os
    | _ => nofun
  · unfold substituteStmt at he
    rw [Stmt.exprs_mapExprs] at he
    obtain ⟨e', -, rfl⟩ := mem_map.1 he
    exact params_substitute hargs e'

end Bindings

end SpectrumAsm
