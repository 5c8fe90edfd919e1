/-
Programs read from recased texts.

A recased program is read to the same lines, up to the case of names, and to faults of the same codes in the
same places (`read_recased`).
-/
import SpectrumAsm.Proofs.ParallelReading
import SpectrumAsm.Proofs.RecasedLines

namespace SpectrumAsm

open Text SourceLine

/-- What a diagnostic tells apart from its wording: the code, the file and the line. -/
def Diagnostic.gist (d : Diagnostic) : String × String × Nat := (d.fault.code, d.file, d.line)

/-! ## Directives -/

namespace SourceTree

theorem evalCondition_eq (t : SourceTree) (e : Expr) : t.evalCondition e =
    (((e.evaluate t.conditionEnv).run.run (Random.ofSeed 0)).map (Except.mapError Fault.ofExpr) id).1.map fun
      | .ready v => v.truth?.getD false
      | .pending _ => false := by
  unfold evalCondition
  obtain ⟨fault | v | names, random⟩ := (e.evaluate t.conditionEnv).run.run (Random.ofSeed 0) <;> rfl

theorem evalCondition_recased {e e' : Expr} (h : e'.folded = e.folded) (t : SourceTree) :
    t.evalCondition e' = t.evalCondition e := by
  rw [evalCondition_eq, evalCondition_eq, Expr.evaluate_recased h]

end SourceTree

theorem parseModel_recased {name name' : String} (h : upcase name' = upcase name) :
    (∃ m, Cpu.Model.parse name = .ok m ∧ Cpu.Model.parse name' = .ok m) ∨
      ∃ u u', Cpu.Model.parse name = .error u ∧ Cpu.Model.parse name' = .error u' := by
  rcases ignoresCase_model name with ⟨m, hn, hu⟩ | ⟨u, u', hn, hu⟩ <;>
    rcases ignoresCase_model name' with ⟨m', hn', hu'⟩ | ⟨v, v', hn', hu'⟩ <;> rw [h, hu] at hu' <;> cases hu'
  · exact .inl ⟨m, hn, hn'⟩
  · exact .inr ⟨u, v, hn, hn'⟩

/-- Directives that are the same in capital letters come to the same. -/
theorem Directive.alike_of_folded {d d' : Directive} (h : d'.folded = d.folded) : d.Alike d' := by
  have hdefined {name name' : String} (h : upcase name' = upcase name) (defines : List String) :
      defines.contains (upcase name') = defines.contains (upcase name) := by rw [h]
  have hmodel {name name' : String} (h : upcase name' = upcase name) (model : Cpu.Model) (wanted : Bool) :
      SourceTree.evalModel model name' wanted = SourceTree.evalModel model name wanted := by
    unfold SourceTree.evalModel
    rcases parseModel_recased h with ⟨m, hn, hn'⟩ | ⟨u, u', hn, hn'⟩ <;> rw [hn, hn']
  have hunknown {name name' : String} (h : upcase name' = upcase name) :
      (Test.model name').namesUnknownModel = (Test.model name).namesUnknownModel := by
    rcases parseModel_recased h with ⟨m, hn, hn'⟩ | ⟨u, u', hn, hn'⟩ <;> simp [Test.namesUnknownModel, hn, hn']
  cases d <;> cases d' <;>
    simp only [Directive.renamed, reduceCtorEq, Directive.define.injEq, Directive.undef.injEq, Directive.ifDef.injEq,
      Directive.ifNotDef.injEq, Directive.ifTrue.injEq, Directive.ifModel.injEq, Directive.ifNotModel.injEq,
      Directive.includeFile.injEq] at h
  case define.define => exact .define h
  case undef.undef => exact .undef h
  case ifDef.ifDef =>
    exact .test (.defined _) (.defined _) (fun _ defines => congrArg Except.ok (hdefined h defines)) rfl
  case ifNotDef.ifNotDef =>
    exact .test (.undefined _) (.undefined _) (fun _ defines => congrArg (Except.ok !·) (hdefined h defines)) rfl
  case ifTrue.ifTrue => exact .test (.holds _) (.holds _) (fun _ _ => SourceTree.evalCondition_recased h _) rfl
  case ifModel.ifModel => exact .test (.model _) (.model _) (fun model _ => hmodel h model true) (hunknown h)
  case ifNotModel.ifNotModel =>
    exact .test (.otherModel _) (.otherModel _) (fun model _ => hmodel h model false) (hunknown h)
  case otherwise.otherwise => exact .otherwise
  case endIf.endIf => exact .endIf
  case includeFile.includeFile path _ =>
    cases h
    exact .includeFile path

/-! ## Programs -/

/-- What has been read of a program and of a recased one: the texts of the files may differ, and the wording
of faults. -/
structure SourceTree.Recased (t u : SourceTree) : Prop where
  defines : u.defines = t.defines
  names : u.names = t.names
  dirs : u.dirs = t.dirs
  faults : u.diagnostics.map Diagnostic.gist = t.diagnostics.map Diagnostic.gist

namespace SourceTree.Recased

/-- Two runs through texts that have the same lines up to the case of names. -/
def pairing : ReadPairing where
  faults := SameCode
  texts text text' := ∀ file, SameLines (ofSource file text) (ofSource file text')
  lines l m := m.folded = l.folded
  trees := SourceTree.Recased

theorem parallel : ParallelReading pairing where
  fault _ := rfl
  text _ _ := ⟨rfl, rfl⟩
  lines h file := forall₂_map_eq_iff.2 (h file).lines
  unread h file := (forall₂_map_eq_iff.2 (h file).faults).imp fun _ _ => Prod.mk.inj
  pos {l m} h := by
    have hpos := congrArg pos h
    exact hpos
  directive {l m} h := by
    obtain ⟨pos, label, stmt, comment⟩ := l
    obtain ⟨pos', label', stmt', comment'⟩ := m
    have hstmt : stmt'.map Stmt.folded = stmt.map Stmt.folded := congrArg SourceLine.stmt h
    rcases stmt with _ | s <;> rcases stmt' with _ | s'
    · exact .none
    · cases hstmt
    · cases hstmt
    · have hs : s'.folded = s.folded := Option.some.inj hstmt
      cases s <;> cases s' <;>
        first | cases hs | exact .none | exact .some (Directive.alike_of_folded (Stmt.directive.inj hs))
  defines h := h.defines
  names h := h.names
  setDefines h _ := { h with defines := rfl }
  report {t u} h {f g} hfault pos := by
    refine { h with faults := ?_ }
    unfold SourceTree.report
    rw [Array.map_push, Array.map_push, h.faults, h.names]
    exact congrArg (Array.push _) (congrArg (·, _, _) hfault)
  openFile {t u} h name dir _ _ _ :=
    { h with names := congrArg (Array.push · name) h.names, dirs := congrArg (Array.push · dir) h.dirs }

end SourceTree.Recased

/-- A recased program has the same lines, up to the case of names, and faults of the same codes in the same
places. -/
theorem SourceTree.read_recased (options : Options) (tree : FileTree) (name : String) (dir : Option String)
    {s t : String} (h : SpectrumAsm.Recased s t) :
    (read options tree name dir t).1.map folded = (read options tree name dir s).1.map folded ∧
      (read options tree name dir s).2.Recased (read options tree name dir t).2 := by
  obtain ⟨hlines, htree⟩ := Recased.parallel.readFile (.ofTree options tree) (tree.places.length + 1) dir
    (dir.bind fun _ => tree.canonical? name).toList name (ofSource_recased h)
    (t := start options) (u := start options) ⟨rfl, rfl, rfl, rfl⟩
  exact ⟨forall₂_map_eq_iff.1 hlines, htree⟩

end SpectrumAsm
