/-
Definitions of structures.

A structure is measured in a segment of its own, which is put away again. Its symbols are made one after the
other, and the first one whose name is taken stops the definition: those before it stay.
-/
import SpectrumAsm.Proofs.Walking

namespace SpectrumAsm

open Text Step

variable {a : Assembly} {pos : Position} {symbols : List (String × SymbolKind × Nat)}

/-- The name is taken in the place it belongs to. -/
def SymbolTable.Clashes (t : SymbolTable) (name : String) : Prop :=
  t.isTaken (t.labelSlot (upcase name)) (upcase name) = true

/-- Symbols for numbers are made one after the other, each in the place its name belongs to and is free in. -/
inductive Makes (pos : Position) : SymbolTable → List (String × SymbolKind × Nat) → SymbolTable → Prop where
  | nil (t : SymbolTable) : Makes pos t [] t
  | cons {t u : SymbolTable} {name : String} {kind : SymbolKind} {n : Nat} {more : List (String × SymbolKind × Nat)}
    (hfree : ¬ t.Clashes name)
    (h : Makes pos (t.addSymbol (t.labelSlot (upcase name)) ⟨upcase name, kind, some (.int (.ofNat n)), pos⟩)
      more u) : Makes pos t ((name, kind, n) :: more) u

/-- The structure that lines are measured to be. -/
def Assembly.measured (a : Assembly) (name : String) (body : List SourceLine) : StructDef :=
  let m := ((measureStruct body).run a).1
  ⟨upcase name, m.1, m.2, body⟩

/-- What becomes of the definition of a structure, but for the names that were asked for in measuring it. -/
inductive DefinesStruct (d : StructDef) (pos : Position) (t : SymbolTable) : Except Fault Unit → SymbolTable →
    Prop where
  /-- all its symbols are made, and it is known -/
  | whole {u : SymbolTable} (h : Makes pos t d.symbols u) : DefinesStruct d pos t (.ok ()) (u.addStruct d)
  /-- the symbols before the first name that is taken are made, and it is not known -/
  | clash {u : SymbolTable} {made rest : List (String × SymbolKind × Nat)} {name : String} {kind : SymbolKind} {n : Nat}
    (hsymbols : d.symbols = made ++ (name, kind, n) :: rest) (h : Makes pos t made u) (hclash : u.Clashes name) :
    DefinesStruct d pos t (.error (.labelDefined name)) u

theorem run_defineNumber (name : String) (kind : SymbolKind) (n : Nat) (a : Assembly) :
    a.symbols.Clashes name ∧ (defineNumber (name, kind, n)).run.run a = (.error (.labelDefined name), a) ∨
      ¬ a.symbols.Clashes name ∧ (defineNumber (name, kind, n)).run.run a = (.ok (), { a with
        symbols := a.symbols.addSymbol (a.symbols.labelSlot (upcase name))
          ⟨upcase name, kind, some (.int (.ofNat n)), a.pos⟩ }) := by
  unfold defineNumber
  rw [run_bind, run_of]
  by_cases h : a.symbols.Clashes name
  · have hdefine : a.define name kind (some (.int (.ofNat n))) = (.error (.labelDefined name), a) := if_pos h
    rw [hdefine]
    exact .inl ⟨h, rfl⟩
  · refine .inr ⟨h, ?_⟩
    have hdefine : a.define name kind (some (.int (.ofNat n))) = (.ok _, _) := if_neg h
    rw [hdefine]
    rfl

theorem run_defineNumbers {outcome : Except Fault Unit} {b : Assembly}
    (h : (symbols.forM defineNumber).run.run a = (outcome, b)) :
    ∃ t, b = { a with symbols := t } ∧ (outcome = .ok () ∧ Makes a.pos a.symbols symbols t ∨
      ∃ made name kind n rest, symbols = made ++ (name, kind, n) :: rest ∧ Makes a.pos a.symbols made t ∧
        t.Clashes name ∧ outcome = .error (.labelDefined name)) := by
  induction symbols generalizing a with
  | nil =>
    cases h
    exact ⟨_, rfl, .inl ⟨rfl, .nil _⟩⟩
  | cons symbol symbols ih =>
    obtain ⟨name, kind, n⟩ := symbol
    replace h : (defineNumber (name, kind, n) >>= fun _ => symbols.forM defineNumber).run.run a = (outcome, b) := h
    rw [run_bind] at h
    rcases run_defineNumber name kind n a with ⟨hclash, hrun⟩ | ⟨hfree, hrun⟩ <;> rw [hrun] at h
    · cases h
      exact ⟨_, rfl, .inr ⟨[], name, kind, n, symbols, rfl, .nil _, hclash, rfl⟩⟩
    · obtain ⟨t, rfl, ⟨rfl, hmakes⟩ | ⟨made, name', kind', n', rest, rfl, hmakes, hclash, rfl⟩⟩ := ih h
      · exact ⟨t, rfl, .inl ⟨rfl, .cons hfree hmakes⟩⟩
      · exact ⟨t, rfl, .inr ⟨_ :: made, name', kind', n', rest, rfl, .cons hfree hmakes, hclash, rfl⟩⟩

theorem foldl_reportAt (faults : List (Fault × Position)) (a : Assembly) :
    ∃ diagnostics, faults.foldl (fun a x => a.reportAt x.1 x.2) a = { a with diagnostics } := by
  induction faults generalizing a with
  | nil => exact ⟨_, rfl⟩
  | cons fault faults ih => exact ih (a.reportAt fault.1 fault.2)

theorem run_enterStruct (name : String) {body : List SourceLine} (hfits : ∀ line ∈ body, fitsStruct line = true)
    (a : Assembly) :
    let result := (enterStruct (upcase name) body).run.run a
    result.2.segments = a.segments ∧ result.2.pending = a.pending ∧
      ∃ used, DefinesStruct (a.measured name body) a.pos { a.symbols with used } result.1 result.2.symbols := by
  intro result
  obtain ⟨b, hb⟩ : ∃ b, b = ((measureStruct body).run a).2 := ⟨_, rfl⟩
  have hpos : b.pos = a.pos := by rw [hb]; rfl
  have hnoted : Noted a b := hb ▸ (measureStruct_noted hfits a).1
  obtain ⟨used, hused⟩ := hnoted.symbols
  have hrun : result = (do
      (a.measured name body).symbols.forM defineNumber
      modify fun a' => { a' with symbols := a'.symbols.addStruct (a.measured name body) } : Step Unit).run.run b := by
    rw [hb]
    rfl
  rw [hrun, run_bind]
  rcases hdefined : ((a.measured name body).symbols.forM defineNumber).run.run b with ⟨outcome, c⟩
  obtain ⟨t, rfl, hmade⟩ := run_defineNumbers hdefined
  rw [hpos, hused] at hmade
  rcases hmade with ⟨rfl, hmakes⟩ | ⟨made, key, kind, n, rest, hsymbols, hmakes, hclash, rfl⟩
  · exact ⟨hnoted.segments, hnoted.pending, used, .whole hmakes⟩
  · exact ⟨hnoted.segments, hnoted.pending, used, .clash hsymbols hmakes hclash⟩

/-- Defining a structure leaves segments and patches alone. It is refused and no symbol is made, or its symbols are
made: all of them, and then the structure is known, or those before the first name that is taken. -/
theorem struct_defined_up_to_clash (name : Option String) (body : List SourceLine) (close : SourceLine) (a : Assembly) :
    let result := (defineStruct name body close).run.run a
    result.2.segments = a.segments ∧ result.2.pending = a.pending ∧
      (result.2.symbols = a.symbols ∧ (result.1 = .ok () → structFaults body close ≠ []) ∨
        ∃ key ∈ name, ∃ used, DefinesStruct (a.measured key body) a.pos { a.symbols with used } result.1
          result.2.symbols) := by
  intro result
  cases name with
  | none => exact ⟨rfl, rfl, .inl ⟨rfl, nofun⟩⟩
  | some name =>
    obtain ⟨diagnostics, hreported⟩ := foldl_reportAt (structFaults body close) a
    have hrun : result = if a.symbols.hasStruct (upcase name) then (.error (.structDefined name), a)
        else (if (structFaults body close).isEmpty then enterStruct (upcase name) body else pure ()).run.run
          { a with diagnostics } := by
      rw [← hreported]
      show (defineStruct (some name) body close).run.run a = _
      unfold defineStruct
      rw [run_bind, run_get]
      dsimp only
      split <;> rfl
    rw [hrun]
    split
    · exact ⟨rfl, rfl, .inl ⟨rfl, nofun⟩⟩
    cases hfaults : structFaults body close with
    | nil =>
      rw [hfaults] at hreported
      rw [← hreported]
      obtain ⟨hsegments, hpending, hdefines⟩ := run_enterStruct name (fits_of_structFaults hfaults) a
      exact ⟨hsegments, hpending, .inr ⟨name, rfl, hdefines⟩⟩
    | cons fault faults => exact ⟨rfl, rfl, .inl ⟨rfl, fun _ => nofun⟩⟩

/-- The state behind a label that has the name of a field. -/
@[irreducible] def behindFieldName : Assembly :=
  ((walkSingle none ⟨⟨0, 0⟩, some "S.F", some (.op .nop []), none⟩).run (.new {})).2

def linesOfStruct : List SourceLine := [⟨⟨0, 2⟩, some "F", some (.pragma (.defb [.int 1])), none⟩]

/-- The size of the structure keeps its symbol, and no structure is known. -/
theorem struct_defined_up_to_clash_field :
    let result := (defineStruct (some "S") linesOfStruct ⟨⟨0, 3⟩, none, none, none⟩).run.run behindFieldName
    (∃ key ∈ some "S", ∃ used, DefinesStruct (behindFieldName.measured key linesOfStruct) behindFieldName.pos
        { behindFieldName.symbols with used } result.1 result.2.symbols) ∧
      ((result.2.symbols.symbolsAt (.module 0)).get? "S").map (·.kind) = some .label ∧
        result.2.symbols.hasStruct "S" = false := by
  intro result
  have hbefore : ((behindFieldName.symbols.symbolsAt (.module 0)).get? "S").map (·.kind) = none := by decide +kernel
  have hmade : ((result.2.symbols.symbolsAt (.module 0)).get? "S").map (·.kind) = some .label := by decide +kernel
  refine ⟨?_, hmade, by decide +kernel⟩
  obtain ⟨-, -, ⟨hsame, -⟩ | hdefines⟩ := struct_defined_up_to_clash (some "S") linesOfStruct ⟨⟨0, 3⟩, none, none, none⟩
    behindFieldName
  · rw [hsame, hbefore] at hmade
    cases hmade
  · exact hdefines

end SpectrumAsm
