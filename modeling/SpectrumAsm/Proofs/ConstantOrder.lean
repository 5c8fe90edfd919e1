/-
The order of constants does not matter.

A program of constants ends with the least table of values that is closed under its definitions, and every
fault is the one its expression has in that table: it makes no difference whether a definition was found
faulty on its line, in a later sweep or at the very end.
-/
import SpectrumAsm.Proofs.Blocks
import SpectrumAsm.Proofs.ConstantLedger

namespace SpectrumAsm

open Assembly Stmt SourceLine

variable {line : SourceLine} {a : Assembly} {lines : List SourceLine} {name : String} {e : Expr}
  {n : Nat} {named : List (String × Expr)}

/-! ## Programs of constants -/

def SourceLine.constant? (line : SourceLine) : Option (String × Expr) :=
  match line.label, line.stmt with
  | some name, some (.pragma (.equ e)) => some (name, e)
  | _, _ => none

/-- A definition under the name it is entered by. -/
def keyed (d : String × Expr) : String × Expr := (Text.upcase d.1, d.2)

theorem SourceLine.constant?_eq_some (h : line.constant? = some (name, e)) :
    line.label = some name ∧ line.stmt = some (.pragma (.equ e)) := by
  unfold constant? at h
  split at h
  · next hl hs =>
    cases h
    exact ⟨hl, hs⟩
  · cases h

theorem walkSingle_equ (h : line.constant? = some (name, e)) (hp : e.params = [])
    (walk : Option LineWalker) (ha : a.hanging = none) :
    (walkSingle walk line).run a = (reporting (defineEqu e (some name))).run { a with opened := none } := by
  obtain ⟨hl, hs⟩ := constant?_eq_some h
  have hparam : (pragma (.equ e)).hasParam = false := by
    simp [hasParam, operandParams, operands, exprs, Pragma.exprs, hp]
  have htake : takeLabel { a with opened := none } line = (some name, { a with opened := none }) := by
    unfold takeLabel
    rw [hl]
  have hflush : flushLabel { a with opened := none } = { a with opened := none } := by
    unfold flushLabel
    rw [ha]
  unfold walkSingle
  rw [hs]
  show StateT.run (if (pragma (.equ e)).hasParam then _ else runStmt walk line (.pragma (.equ e)) :
    Walk Unit) { a with opened := none } = _
  rw [hparam]
  show (reporting (runPragma (takeLabel { a with opened := none } line).1 (.equ e))).run
    (flushLabel (takeLabel { a with opened := none } line).2) = _
  rw [htake, hflush]
  rfl

/-- By induction on the lines: each is entered in the ledger. -/
theorem walkLines_ledger (expand : Option LineWalker) {ds : List (String × Expr)}
    (hl : lines.map constant? = named.map some) (hn : lines.length ≤ n)
    {settled : List ((String × Expr) × Option Fault)} (h : Ledger ds (named.map keyed) settled a) :
    ∃ settled, Ledger ds [] settled ((walkLines expand n lines).run a).2 := by
  induction lines generalizing named n a settled with
  | nil =>
    cases named with
    | nil => cases n <;> exact ⟨settled, h⟩
    | cons d named => cases hl
  | cons line lines ih =>
    cases named with
    | nil => cases hl
    | cons d named =>
      obtain ⟨name, e⟩ := d
      obtain ⟨n, rfl⟩ : ∃ m, n = m + 1 := ⟨n - 1, by simp at hn; omega⟩
      rw [List.map_cons, List.map_cons, List.cons.injEq] at hl
      have hd : keyed (name, e) ∈ ds := h.once.subset (by simp)
      have hinterrupted : a.isInterrupted = false := by
        unfold isInterrupted SymbolTable.topScope? SymbolTable.top?
        rw [h.flat.active]
        rfl
      have hrole : line.role = .single := by
        unfold role
        rw [(constant?_eq_some hl.1).2]
      have hmoved : Ledger ds _ settled { a.moveTo line.pos with opened := none } :=
        h.same ⟨a.symbols.used, rfl⟩ rfl rfl rfl
      obtain ⟨settled', hline⟩ := hmoved.line
      have hparams : e.params = [] := Expr.params_of_isConstant (h.definitions.exprs _ hd)
      rw [walkLines_single hinterrupted hrole, walkSingle_equ (a := a.moveTo line.pos) hl.1 hparams expand h.hanging]
      exact ih hl.2 (by simpa using hn) hline

theorem assembleLines_constants (hl : lines.map constant? = named.map some)
    (hds : Definitions (named.map keyed)) (setup : Setup) :
    let a := ((assembleLines lines).run (.new setup)).2
    a.symbols.constants.Closed (named.map keyed) ∧ (∀ k, k.Closed (named.map keyed) → a.symbols.constants.Below k) ∧
      (a.diagnostics.toList.map (·.fault)).Perm
        ((named.map keyed).filterMap fun d => d.2.fault? a.symbols.constants) ∧
      ∀ name, (a.symbols.exported.get? name).bind (·.value) = a.symbols.constants name := by
  have hwalk : ∃ settled, Ledger (named.map keyed) [] settled
      ((walkDepth setup.options.maxMacroDepth lines).run (.new setup)).2 := by
    cases setup.options.maxMacroDepth with
    | zero => exact walkLines_ledger none hl (Nat.le_refl _) (.new hds setup)
    | succ depth => exact walkLines_ledger (some (walkDepth depth)) hl (Nat.le_refl _) (.new hds setup)
  obtain ⟨settled, h⟩ := hwalk
  have hrun : ((assembleLines lines).run (.new setup)).2 =
      ((walkDepth setup.options.maxMacroDepth lines).run (.new setup)).2.resolveAll := by
    show ((walkDepth setup.options.maxMacroDepth lines).run (.new setup)).2.flushLabel.resolveAll = _
    unfold flushLabel
    rw [h.hanging]
  rw [hrun]
  exact h.resolveAll

/-- Constants with pairwise different names, written in any order: the same ones get a value, each the same
one, and the same faults are reported equally often. -/
theorem constants_in_any_order {l₁ l₂ : List SourceLine} {ds₁ ds₂ : List (String × Expr)}
    (h₁ : l₁.map constant? = ds₁.map some)
    (h₂ : l₂.map constant? = ds₂.map some) (hperm : ds₁.Perm ds₂)
    (hnames : (ds₁.map fun d => Text.upcase d.1).Nodup)
    (hexprs : ∀ d ∈ ds₁, d.2.isConstant = true) (setup₁ setup₂ : Setup) :
    let a₁ := ((assembleLines l₁).run (.new setup₁)).2
    let a₂ := ((assembleLines l₂).run (.new setup₂)).2
    (∀ name, (a₁.symbols.exported.get? name).bind (·.value) = (a₂.symbols.exported.get? name).bind (·.value)) ∧
      (a₁.diagnostics.toList.map (·.fault)).Perm (a₂.diagnostics.toList.map (·.fault)) := by
  have hkeyed : (ds₁.map keyed).Perm (ds₂.map keyed) := hperm.map keyed
  have hds₁ : Definitions (ds₁.map keyed) := by
    refine ⟨?_, fun d hd => ?_⟩
    · rw [List.map_map]
      exact hnames
    · obtain ⟨d₀, hd₀, rfl⟩ := List.mem_map.1 hd
      exact hexprs d₀ hd₀
  obtain ⟨hclosed₁, hleast₁, hfaults₁, htable₁⟩ := assembleLines_constants h₁ hds₁ setup₁
  obtain ⟨hclosed₂, hleast₂, hfaults₂, htable₂⟩ := assembleLines_constants h₂ (hds₁.perm hkeyed) setup₂
  -- Each table is below the other, since both are closed under the same definitions.
  have hsame : ((assembleLines l₁).run (.new setup₁)).2.symbols.constants =
      ((assembleLines l₂).run (.new setup₂)).2.symbols.constants := by
    funext name
    exact Option.ext fun v => ⟨hleast₁ _ (hclosed₂.perm hkeyed.symm) name v, hleast₂ _ (hclosed₁.perm hkeyed) name v⟩
  refine ⟨fun name => ?_, ?_⟩
  · rw [htable₁, htable₂, hsame]
  · rw [hsame] at hfaults₁
    exact hfaults₁.trans ((hkeyed.filterMap _).trans hfaults₂.symm)

/-- Constants one of which has a value from the start, one later and one never because it divides by
zero, while one refers to itself and one to a name that is not defined. -/
def mixedConstants : List (String × Expr) := [("a", .binary .add (.symbol ⟨["B"], false⟩) (.int 1)), ("B", .int 2),
    ("c", .binary .div (.symbol ⟨["A"], false⟩) (.int 0)),
    ("D", .symbol ⟨["D"], false⟩),
    ("e", .symbol ⟨["X"], false⟩)]

def SourceLine.ofConstant (line : Nat) (d : String × Expr) : SourceLine where
  pos := ⟨0, line⟩
  label := some d.1
  stmt := some (.pragma (.equ d.2))
  comment := none

theorem constants_in_any_order_reversed :
    (mixedConstants.map fun d => Text.upcase d.1).Nodup ∧ (∀ d ∈ mixedConstants, d.2.isConstant = true) ∧
      let a₁ := ((assembleLines (mixedConstants.map (.ofConstant 0))).run (.new {})).2
      let a₂ := ((assembleLines (mixedConstants.reverse.map (.ofConstant 1))).run (.new {})).2
      (∀ name, (a₁.symbols.exported.get? name).bind (·.value) = (a₂.symbols.exported.get? name).bind (·.value)) ∧
        (a₁.diagnostics.toList.map (·.fault)).Perm (a₂.diagnostics.toList.map (·.fault)) := by
  have hnames : (mixedConstants.map fun d => Text.upcase d.1).Nodup := by decide
  have hexprs : ∀ d ∈ mixedConstants, d.2.isConstant = true := by decide
  have h₁ : (mixedConstants.map (.ofConstant 0)).map constant? = mixedConstants.map some := rfl
  have h₂ : (mixedConstants.reverse.map (.ofConstant 1)).map constant? =
    mixedConstants.reverse.map some := rfl
  exact ⟨hnames, hexprs, constants_in_any_order h₁ h₂ (List.reverse_perm _).symm hnames hexprs {} {}⟩

end SpectrumAsm
