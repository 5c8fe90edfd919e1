/-
What a line that fails leaves behind.

Operations and data pragmas put all their code into a segment as a whole or not at all (`Step.Emits`). Every
other pragma evaluates first and makes its one change last; `.equ` makes two, but the second cannot fail.
-/
import SpectrumAsm.Proofs.Branches

namespace SpectrumAsm

/-- After a failed line: a first segment may have been opened, names asked for and random numbers drawn, and
the rest of the state is as it was. -/
structure Assembly.Undone (a b : Assembly) : Prop where
  segments : b.segments = a.segments ∨ a.segments = #[] ∧ b.segments = #[{ start := a.setup.options.defaultStart }]
  address : b.address = a.address
  rest : ∃ random used, b = { a with
    segments := b.segments, random, symbols := { a.symbols with used } }

namespace Assembly.Undone

variable {a b c : Assembly}

theorem ofAsked (h : Asked a b) : a.Undone b := by
  obtain ⟨random, used, rfl⟩ := h
  exact ⟨.inl rfl, rfl, random, used, rfl⟩

theorem openSegment (a : Assembly) : a.Undone a.openSegment := by
  by_cases h : a.segments = #[]
  · have hfirst : a.openSegment.segments[a.lastSegment]? = some { start := a.setup.options.defaultStart } := by
      simp [openSegment_of_empty h, lastSegment, h]
    have haddress := (address_eq hfirst).1
    rw [openSegment_of_empty h]
    exact ⟨.inr ⟨h, rfl⟩, haddress.symm, a.random, a.symbols.used, rfl⟩
  · rw [openSegment_of_size_pos (Array.size_pos_iff.2 h)]
    exact ofAsked (Asked.refl a)

theorem asked_trans (h : Asked a b) (hu : b.Undone c) : a.Undone c := by
  obtain ⟨random, used, rfl⟩ := h
  obtain ⟨random, used, hc⟩ := hu.rest
  exact ⟨hu.segments, hu.address, random, used, hc⟩

end Assembly.Undone

def Step.Atomic {α : Type} (x : Step α) : Prop :=
  ∀ (a b : Assembly) (fault : Fault), x.run.run a = (.error fault, b) → a.Undone b

namespace Step.Atomic

variable {α β : Type}

theorem throw (fault : Fault) : Atomic (throw fault : Step α) := by
  intro a b _ h
  cases h
  exact .ofAsked (Asked.refl a)

theorem throw_bind (fault : Fault) (f : α → Step β) : Atomic ((MonadExcept.throw fault : Step α) >>= f) := by
  intro a b _ h
  cases h
  exact .ofAsked (Asked.refl a)

theorem modify (f : Assembly → Assembly) : Atomic (modify f) := fun _ _ _ h => by cases h

theorem of {f : Assembly → Except Fault α × Assembly}
    (h : ∀ a b fault, f a = (.error fault, b) → a.Undone b) : Atomic (Step.of f) := h

theorem bind {x : Step α} {f : α → Step β} (hx : x.Keeps Asked) (hf : ∀ v, (f v).Atomic) : (x >>= f).Atomic := by
  intro a c fault h
  have ha := hx a
  rcases hr : x.run.run a with ⟨stop | v, b⟩ <;> rw [hr] at ha
  · rw [run_bind_error hr] at h
    cases h
    exact .ofAsked ha
  · rw [run_bind_ok hr] at h
    exact .asked_trans ha (hf v b c fault h)

theorem bind_ok {x : Step α} {f : α → Step β} (hx : x.Atomic)
    (hf : ∀ v a, ∃ w, ((f v).run.run a).1 = .ok w) : (x >>= f).Atomic := by
  intro a c fault h
  rcases hr : x.run.run a with ⟨stop | v, b⟩
  · rw [run_bind_error hr] at h
    cases h
    exact hx a _ _ hr
  · obtain ⟨w, hw⟩ := hf v b
    rw [run_bind_ok hr] at h
    rw [h] at hw
    cases hw

end Step.Atomic

theorem Step.Emits.atomic {P : Code → Prop} {x : Step Unit} (hx : x.Emits P) : x.Atomic := by
  intro a c fault h
  obtain ⟨b, hab, ⟨stop, hr⟩ | ⟨code, -, -, hr⟩⟩ := hx a <;> rw [hr] at h
  · cases h
    exact .ofAsked hab
  · rw [Assembly.emit_error h]
    exact .asked_trans hab (.openSegment b)

/-! ## Pragmas that make one change -/

theorem setEntry_atomic (exported : Bool) (e : Expr) : (setEntry exported e).Atomic := by
  refine .bind .get fun a => ?_
  dsimp only
  split
  · exact .throw_bind _ _
  refine .bind (evalExpr_asked e) fun outcome => ?_
  cases outcome with
  | ready v => exact .bind (.ofExcept v.lowWord) fun w => .modify _
  | pending names => exact .modify _

theorem define_atomic (name : String) (kind : SymbolKind) (value : Option Value) :
    (Step.of fun a => a.define name kind value).Atomic := by
  refine .of fun a b fault h => ?_
  rcases a.define_cases name kind value with ⟨_, hd⟩ | ⟨-, hd⟩ <;> rw [hd] at h <;> cases h
  exact .ofAsked (Asked.refl a)

theorem defineEqu_atomic (e : Expr) (label : Option String) : (defineEqu e label).Atomic := by
  cases label with
  | none => exact .throw _
  | some label =>
    refine .bind (evalExpr_asked e) fun outcome => .bind_ok (define_atomic label .equ _) fun slot a => ?_
    cases outcome with
    | ready v | pending names => exact ⟨(), rfl⟩

theorem setVariable_atomic (e : Expr) (label : Option String) : (setVariable e label).Atomic := by
  cases label with
  | none => exact .throw _
  | some label =>
    refine .bind (evalNow_asked e) fun v => .of fun a b fault h => ?_
    unfold Assembly.setVar at h
    dsimp only at h
    split at h <;> cases h
    exact .ofAsked (Asked.refl a)

theorem setModel_atomic (name : String) : (setModel name).Atomic := by
  refine .bind .get fun a => ?_
  dsimp only
  split
  · exact .throw_bind _ _
  cases Cpu.Model.parse name with
  | ok model => exact .modify _
  | error _ => exact .throw _

theorem addTrace_atomic (hex : Bool) (es : List Expr) : (addTrace hex es).Atomic :=
  .bind (.mapM es fun e => (evalNow_asked e).bind fun _ => .pure _) fun _ => .modify _

theorem seedRandom_atomic (e : Option Expr) : (seedRandom e).Atomic := by
  cases e with
  | none => exact .modify _
  | some e => exact .bind (evalInt_asked e) fun n => .modify _

theorem runPragma_atomic (label : Option String) (p : Pragma) : (runPragma label p).Atomic := by
  cases p with
  | org e => exact .bind (evalInt_asked e) fun n => .modify _
  | ent e => exact setEntry_atomic false e
  | xent e => exact setEntry_atomic true e
  | disp e => exact .bind (evalInt_asked e) fun n => .modify _
  | equ e => exact defineEqu_atomic e label
  | var e => exact setVariable_atomic e label
  | skip target fill => exact (emitSkip_emits target fill).atomic
  | model name => exact setModel_atomic name
  | align e => exact (emitAlign_emits e).atomic
  | trace hex es => exact addTrace_atomic hex es
  | rndseed e => exact seedRandom_atomic e
  | error e => exact .bind (evalNow_asked e) fun _ => .throw _
  | includebin file offset length => exact (emitFile_emits file offset length).atomic
  | _ => exact (runPragma_emits rfl label).atomic

/-! ## Lines -/

/-- A line that fails leaves nothing behind: if an operation or a pragma stops at a fault, then no byte, no
start address and no displacement of a segment has changed, no patch was queued, and no symbol was defined or set.
At most a first segment without bytes was opened, which does not move the address. -/
theorem failed_line_undone {line : Step Unit}
    (hline : (∃ m operands, line = emitOperation m operands) ∨ ∃ label p, line = runPragma label p)
    {a b : Assembly} {fault : Fault} (h : line.run.run a = (.error fault, b)) : a.Undone b := by
  obtain ⟨m, operands, rfl⟩ | ⟨label, p, rfl⟩ := hline
  · exact (emitOperation_emits m operands).atomic a b fault h
  · exact runPragma_atomic label p a b fault h

/-- A word that waits does not fit behind the last address: a segment was opened for it, but no patch
is left in the queue. -/
theorem failed_line_undone_word :
    let a := Assembly.new { options := { defaultStart := 0xFFFF } }
    let run := (runPragma none (.defw [.symbol ⟨["LATER"], false⟩])).run.run a
    run.1.toOption = none ∧ run.2.segments = #[⟨0xFFFF, none, #[]⟩] ∧ a.Undone run.2 := by
  have hfault : (runPragma none (.defw [.symbol ⟨["LATER"], false⟩])).run.run
      (Assembly.new { options := { defaultStart := 0xFFFF } }) = (.error .addressOverflow, _) := rfl
  exact ⟨rfl, rfl, failed_line_undone (.inr ⟨_, _, rfl⟩) hfault⟩

end SpectrumAsm
