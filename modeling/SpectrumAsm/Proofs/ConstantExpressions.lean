/-
Expressions that mean the same on every line.

An expression made of literals, symbols, operators and functions other than `rnd` depends on the values of its
symbols and on nothing else. Once all of them have a value, its outcome stays.
-/
import SpectrumAsm.Proofs.Drawing

namespace SpectrumAsm

namespace Expr

theorem params_of_isConstant {e : Expr} (h : e.isConstant = true) : e.params = [] := by
  induction e using parts_induction with
  | step e ih =>
    have hp := fun part hm => ih part hm (isConstant_parts h part hm)
    cases e with
    | call name args => simpa [params, paramsAll_eq, parts] using hp
    | _ => simp_all [params, parts, isConstant]

theorem evaluate_congr {env env' : Env} {e : Expr} (h : e.isConstant = true)
    (hs : ∀ ref ∈ e.symbols, env.symbol ref = env'.symbol ref) : e.evaluate env = e.evaluate env' :=
  evaluate_agrees isConstant_parts nofun nofun h hs

end Expr

/-! ## Tables of constants -/

abbrev Constants := String → Option Value

namespace Constants

/-- What expressions can refer to if there is nothing but constants. -/
def env (k : Constants) : Env where
  symbol ref := k ref.joined
  address := 0
  counter := none

/-- Every value of one table is in another. -/
def Below (k k' : Constants) : Prop := ∀ name v, k name = some v → k' name = some v

end Constants

/-- The outcome of a constant expression. The generator is not looked at. -/
def Expr.outcome (k : Constants) (e : Expr) : Except Fault Evaluated :=
  ((e.evaluate k.env).run.run ⟨0⟩).1.mapError .ofExpr

theorem Assembly.evalAt_constant {a : Assembly} {place : Place} {e : Expr} {k : Constants} (he : e.isConstant = true)
    (hk : ∀ ref ∈ e.symbols, (a.symbols.env place).symbol ref = k ref.joined) : (a.evalAt place e).1 = e.outcome k := by
  have hsame : e.evaluate (a.symbols.env place) = e.evaluate k.env := Expr.evaluate_congr he hk
  obtain ⟨r, hr⟩ := (Expr.evaluate_obeys k.env e).still he
  rw [evalAt_outcome, hsame]
  unfold Expr.outcome
  rw [hr, hr]

namespace Expr

variable {k k' : Constants} {e : Expr}

theorem outcome_pending_iff {names : List String} :
    e.outcome k = .ok (.pending names) ↔ e.Waits k.env ∧ e.pendingNames k.env = names := by
  rw [← evaluate_pending_iff (g := ⟨0⟩)]
  unfold outcome
  cases ((e.evaluate k.env).run.run ⟨0⟩).1 with
  | error _ => exact ⟨nofun, nofun⟩
  | ok _ => exact ⟨fun h => congrArg _ (Except.ok.inj h), fun h => congrArg _ (Except.ok.inj h)⟩

theorem outcome_below (he : e.isConstant = true) (hk : k.Below k')
    (h : ∀ names, e.outcome k ≠ .ok (.pending names)) : e.outcome k' = e.outcome k := by
  have hknown : e.pendingNames k.env = [] := Classical.byContradiction fun hn =>
    h _ (outcome_pending_iff.2 ⟨⟨params_of_isConstant he, hn⟩, rfl⟩)
  have hsame : ∀ ref ∈ e.symbols, k'.env.symbol ref = k.env.symbol ref := by
    intro ref hr
    cases hv : k.env.symbol ref with
    | some v => exact hk ref.joined v hv
    | none =>
      have hmem : ref.text ∈ e.pendingNames k.env := by
        unfold pendingNames
        rw [mem_distinct]
        exact List.mem_map.2 ⟨ref, List.mem_filter.2 ⟨hr, by rw [hv]; rfl⟩, rfl⟩
      rw [hknown] at hmem
      cases hmem
  unfold outcome
  rw [evaluate_congr he hsame]

end Expr

end SpectrumAsm
