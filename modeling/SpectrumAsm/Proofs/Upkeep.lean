/-
What the lines of a program do to the state, step by step.

`Upkeep` lists the changes lines are made of, those that leave structure instances, scopes and modules alone
first (`Drafting`), without those of entry addresses. A relation that every change stays inside is kept by all
other lines (`Upkeep.single`) and between the calls of a walk (`Upkeep.housekeeping`).
-/
import SpectrumAsm.Proofs.Walking

namespace SpectrumAsm

variable {p : Pragma} {line : SourceLine} {a : Assembly}

/-- All changes of a state but those of entry addresses lead to a related one. -/
structure Upkeep (R : Assembly → Assembly → Prop) : Prop extends Filing R, BlockKeeping R where
  modifyTop : ∀ (a : Assembly) (f : Scope → Scope), (∀ s, (f s).symbols = s.symbols) →
    R a { a with symbols := a.symbols.modifyTop f }

namespace Upkeep

open Naming (chain)

variable {R : Assembly → Assembly → Prop} (h : Upkeep R) [IsPreorder Assembly R]
include h

omit [IsPreorder Assembly R] in
theorem housekeeping : Housekeeping R where
  closeInstance a := h.setOpened a none
  toNaming := h.toNaming
  toBlockKeeping := h.toBlockKeeping

omit h in
theorem invoke (pos : Position) {name : String} {args : List Operand}
    (hstruct : ∀ d, a.symbols.findMacro? name = none → a.symbols.findStruct? name = some d → args = [] →
      R a ((invokeStruct d).run a).2) : R a ((SpectrumAsm.invoke none pos name args).run.run a).2 := by
  unfold SpectrumAsm.invoke
  rw [Step.run_bind, Step.run_get]
  dsimp only
  cases hmacro : a.symbols.findMacro? name with
  | some d =>
    have hsame : ((expandMacro none pos d args).run.run a).2 = a := by
      unfold expandMacro
      dsimp only
      split
      · rfl
      · show (StateT.run (ExceptT.run (if _ then _ else _ : Step Unit)) a).2 = _
        split <;> rfl
    rw [hsame]
    exact refl a
  | none =>
    cases hfind : a.symbols.findStruct? name with
    | none => exact refl a
    | some d =>
      dsimp only
      split
      · next hargs => exact hstruct d hmacro hfind (List.isEmpty_iff.1 hargs)
      · exact refl a

/-- A line by itself, if a pragma for an entry address and the instance of a structure stay inside the
relation. -/
theorem single (a : Assembly) (line : SourceLine)
    (hentry : ∀ p, line.stmt = some (.pragma p) → p.setsEntry = true → (runPragma none p).Keeps R)
    (hstruct : ∀ name d, (a.atInvocation line).symbols.findStruct? name = some d →
      R (a.atInvocation line) ((invokeStruct d).run (a.atInvocation line)).2) :
    R a ((walkSingle none line).run a).2 := by
  refine h.toNaming.single (h.setOpened · none) (fun hplain => ?_) (fun name p hs => ?_) (fun name args _ => ?_)
    (runStatement_keeps fun a f _ hsymbols => h.modifyTop a f hsymbols)
  · refine chain (h.setOpened a none) (h.plain none hplain a fun p label hs hlabel => ?_)
    cases he : p.setsEntry with
    | false => exact h.runPragma label he
    | true =>
      rcases hlabel with rfl | hsets
      · exact hentry p hs he
      · rw [Pragma.setsEntry_of_setsLabel hsets] at he
        cases he
  · exact h.walkSingle_field hs (h.overrideField name p)
  · exact invoke line.pos fun d _ hd _ => hstruct name d hd

end Upkeep

end SpectrumAsm
