/-
Labels of closing lines.

A label on the line that closes a block, or on the end of a macro, counts as one behind the last line inside.
A choice is the exception, since its closing line is not looked at.
-/
import SpectrumAsm.Proofs.Branches
import SpectrumAsm.Proofs.Visibility

namespace SpectrumAsm

/-- A walk, and behind it the label of a closing line. -/
def Walk.labelled (x : Walk Unit) (label : Option String) (pos : Position) : Walk Unit := do
  x
  modify fun a => a.bindEndLabel label pos

def SourceLine.unlabelled (line : SourceLine) : SourceLine := { line with label := none }

theorem Assembly.bindEndLabel_again (a : Assembly) (label : Option String) (pos pos' : Position) :
    (a.bindEndLabel label pos).bindEndLabel none pos' = a.bindEndLabel label pos := by
  have hhanging : (a.bindEndLabel label pos).hanging = none := by
    obtain ⟨_, _, h⟩ := a.flushLabel_eq
    cases label with
    | none => exact congrArg hanging h
    | some name =>
      obtain ⟨_, _, hlabel⟩ := bindLabel_eq { a.flushLabel with pos } name a.flushLabel.address
      exact (congrArg hanging hlabel).trans (congrArg hanging h)
  exact flushLabel_idle hhanging

/-- The label of a closing line moved to the end of the lines of each pass. -/
def LoopFrame.labelled (f : LoopFrame) : LoopFrame :=
  { f with body := f.body.labelled f.close.label f.close.pos, close := f.close.unlabelled }

theorem runPass_labelled (f : LoopFrame) (finished : Step Bool) : f.labelled.runPass finished = f.runPass finished := by
  funext a
  show (endPass f.close.unlabelled finished a.symbols.top?).run
    ((f.body.run a).2.bindEndLabel f.close.label f.close.pos) =
      (endPass f.close finished a.symbols.top?).run (f.body.run a).2
  generalize (f.body.run a).2 = b
  unfold endPass closePass SourceLine.unlabelled
  simp [pure_bind, b.bindEndLabel_again]

theorem iterate_labelled {σ : Type} (f : LoopFrame) (rule : LoopRule σ) (left : Nat) (pass : Int64) (carried : σ) :
    iterate f.labelled rule left pass carried = iterate f rule left pass carried := by
  induction left generalizing pass carried with
  | zero => unfold iterate; rfl
  | succ left ih =>
    unfold iterate
    simp only [runPass_labelled, ih]
    rfl

theorem runLoop_labelled {σ : Type} (body : Walk Unit) (close : SourceLine) (rule : LoopRule σ) (first : σ) :
    runLoop (body.labelled close.label close.pos) close.unlabelled rule first = runLoop body close rule first := by
  funext a
  exact congrFun (iterate_labelled ⟨body, close, a.pos, a.diagnostics.size⟩ rule _ 1 first) a

theorem walkProc_labelled (walk : LineWalker) (body : List SourceLine) (close : SourceLine) :
    walkProc (fun ls => (walk ls).labelled close.label close.pos) body close.unlabelled = walkProc walk body close := by
  funext a
  have hagain := ((walk body).run (a.openScope .proc)).2.bindEndLabel_again close.label close.pos close.pos
  exact congrArg (fun b : Assembly => ((), (b.resolveScope a.symbols.nextScope).closeScope)) hagain

theorem runExpansion_labelled (walk : LineWalker) (d : MacroDef) (pos : Position) (args : List Operand) :
    runExpansion (fun ls => (walk ls).labelled d.endLabel pos) pos { d with endLabel := none } args =
      runExpansion walk pos d args := by
  funext a
  have hagain := ((walk (Bindings.substituteLines ⟨d.params, args⟩ d.body)).run
    { a.openScope .expansion with macroDepth := a.macroDepth + 1 }).2.bindEndLabel_again d.endLabel pos pos
  exact congrArg (fun b : Assembly =>
    let b := b.resolveScope a.symbols.nextScope
    ((), { b.closeScope with macroDepth := b.macroDepth - 1 })) hagain

theorem walkModule_labelled (walk : LineWalker) (name : Option String) (body : List SourceLine) (close : SourceLine) :
    walkModule (fun ls => (walk ls).labelled close.label close.pos) name body close.unlabelled =
      walkModule walk name body close := by
  cases name with
  | none => rfl
  | some name =>
    unfold walkModule
    dsimp only
    congr 1
    funext a
    cases a.symbols.enterModule name with
    | error fault => rfl
    | ok symbols =>
      funext b
      have hagain := ((walk body).run { b with symbols }).2.bindEndLabel_again close.label close.pos close.pos
      exact congrArg (fun c : Assembly => ((), { c with symbols := c.symbols.leaveModule })) hagain

/-- The label of a closing line is bound behind the lines of the block, each time they were walked, and of a
macro behind each expansion; only a choice makes no use of it. It is defined in the innermost place, unless a
procedure passes it on, with the address reached there; if the name is taken there, this is reported. -/
theorem closing_labels (walk : LineWalker) (line close : SourceLine) (body : List SourceLine) :
    (∀ s : Statement, s.opens ≠ some .choice → s.opens ≠ some .macroDef → s.opens ≠ some .structDef →
      walkBlock walk line s body close =
        walkBlock (fun ls => (walk ls).labelled close.label close.pos) line s body close.unlabelled) ∧
    (∀ (s : Statement) (other : SourceLine), s.opens = some .choice →
      walkBlock walk line s body close = walkBlock walk line s body other) ∧
    (∀ (a : Assembly) (name : Option String) (params : List String),
      ((reporting (defineMacro name params body close)).run a).2.diagnostics = a.diagnostics →
      ∃ key ∈ name.map Text.upcase, (reporting (defineMacro name params body close)).run a =
        ((), { a with symbols := a.symbols.addMacro ⟨key, params, body, close.label⟩ })) ∧
    (∀ (d : MacroDef) (pos : Position) (args : List Operand), runExpansion walk pos d args =
      runExpansion (fun ls => (walk ls).labelled d.endLabel pos) pos { d with endLabel := none } args) ∧
    ∀ (a : Assembly) (name : String) (pos : Position), a.symbols.WellNested →
      let key := Text.upcase name
      let c := a.flushLabel
      let b := a.bindEndLabel (some name) pos
      (¬ c.symbols.PassesOn key → c.symbols.labelSlot key = c.symbols.innermostSlot) ∧
      (c.symbols.isTaken (c.symbols.labelSlot key) key = false → b.diagnostics = c.diagnostics ∧
        (b.symbols.symbolsAt (c.symbols.labelSlot key)).get? key =
          some ⟨key, .label, some (.int (Int64.ofNat a.address.toNat)), pos⟩) ∧
      (c.symbols.isTaken (c.symbols.labelSlot key) key = true →
        b = ({ c with pos } : Assembly).report (.labelDefined name)) := by
  refine ⟨fun s hchoice hnamed hstruct => ?_, fun s other hs => ?_,
    fun a name params h => (defineMacro_accepted h).2, fun d pos args => ?_, fun a name pos ha => ?_⟩
  · unfold walkBlock
    cases s with
    | ifTrue | ifUsed | ifUnused => exact absurd rfl hchoice
    | macroDef => exact absurd rfl hnamed
    | structDef => exact absurd rfl hstruct
    | moduleDef => simp [walkModule_labelled]
    | proc => simp [walkProc_labelled]
    | loop count => simp [countedLoop, runLoop_labelled]
    | whileTrue => simp [whileLoop, runLoop_labelled]
    | repeatBody =>
      simp only [repeatLoop, runLoop_labelled]
      rfl
    | forEach => simp [forLoop, runLoop_labelled]
    | _ => rfl
  · cases s with
    | ifTrue | ifUsed | ifUnused => rfl
    | _ => cases hs
  · exact (runExpansion_labelled walk d pos args).symm
  · have haddress : a.flushLabel.address = a.address := by
      obtain ⟨_, _, h⟩ := a.flushLabel_eq
      rw [h]
      rfl
    have hnested : a.flushLabel.symbols.WellNested := (flushLabel_calm a).history.moves.wellNested ha
    have hlabel : a.bindEndLabel (some name) pos = _ :=
      Assembly.bindLabel_if { a.flushLabel with pos } name a.flushLabel.address
    rw [hlabel, haddress]
    refine ⟨fun hpass => ?_, fun hfree => ?_, fun htaken => if_pos htaken⟩
    · rcases a.flushLabel.symbols.labelSlot_cases (Text.upcase name) with ⟨h, -⟩ | ⟨-, h⟩
      · exact absurd h hpass
      · exact h
    · rw [hfree, if_neg Bool.false_ne_true]
      refine ⟨rfl, ?_⟩
      rw [SymbolTable.addSymbol, SymbolTable.symbolsAt_modifySymbols_labelSlot hnested, NameTable.get?_insert_self]

/-- The label of the line that closes a module is defined in it, behind its one byte. -/
theorem closing_labels_module :
    let line : SourceLine := ⟨⟨0, 0⟩, none, some (.statement (.moduleDef (some "m"))), none⟩
    let close : SourceLine := ⟨⟨0, 2⟩, some "done", some (.statement .endModule), none⟩
    let a := ((walkBlock (walkDepth 0) line (.moduleDef (some "m")) [⟨⟨0, 1⟩, none, some (.op .nop []), none⟩]
      close).run (.new {})).2
    a.diagnostics.size = 0 ∧ ((a.symbols.symbolsAt (.module 1)).get? "DONE").map (fun s =>
      (s.kind, s.value.bind (·.integer?), s.pos)) = some (.label, some 0x8001, ⟨0, 2⟩) := by
  intro line close a
  have hbehind := (closing_labels (walkDepth 0) line close [⟨⟨0, 1⟩, none, some (.op .nop []), none⟩]).1
    (.moduleDef (some "m")) (by decide) (by decide) (by decide)
  have ha : a = _ := congrArg (fun x : Walk Unit => (x.run (.new {})).2) hbehind
  rw [ha]
  decide +kernel

end SpectrumAsm
