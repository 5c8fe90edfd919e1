/-
What a call does around the calls it makes.

Between calls there are only small changes (`Tidies`). A scope, a module or the nesting of macros is opened in
front of a further call and closed behind it (`Around`). By `Call.next_framed` no call does anything else but walk
single lines, so that what holds of these changes holds of whole walks (`Walks.keeps`).
-/
import SpectrumAsm.Proofs.Calls
import SpectrumAsm.Proofs.Nesting

namespace SpectrumAsm

open List SymbolTable Text

variable {R : Assembly → Assembly → Prop}

theorem enterScope_zero (a : Assembly) (kind : ScopeKind) : a.enterScope kind 0 = a.openScope kind := by
  have hscopes : ((a.symbols.openScope kind).modifyTop fun s => { s with counter := 0 }).scopes =
      (a.symbols.openScope kind).scopes := by
    simp only [openScope, modifyTop, top?, head?_cons, modifyScope]
    apply Array.ext_getElem?
    intro k
    rw [Array.getElem?_modify, Array.getElem?_push]
    split
    · next hk => rw [if_pos hk.symm]; rfl
    · rfl
  unfold Assembly.enterScope Assembly.openScope
  have htop : (a.symbols.openScope kind).modifyTop (fun s => { s with counter := 0 }) = { a.symbols.openScope kind with
        scopes := ((a.symbols.openScope kind).modifyTop fun s => { s with counter := 0 }).scopes } := rfl
  rw [htop, hscopes]

/-! ## Blocks -/

theorem Naming.defineMacro [IsPreorder Assembly R] (h : Naming R)
    (hadd : ∀ (a : Assembly) (d : MacroDef), R a { a with symbols := a.symbols.addMacro d }) (name : Option String)
    (params : List String) (body : List SourceLine) (close : SourceLine) :
    (defineMacro name params body close).Keeps R := by
  unfold SpectrumAsm.defineMacro
  dsimp only
  split
  · exact fun a => refl a
  cases name with
  | none => exact .throw _
  | some name =>
  dsimp only
  split
  · exact fun a => refl a
  refine Step.Keeps.get.bind fun a => ?_
  split
  · exact fun a => refl a
  cases unknownParams params body with
  | nil => exact .modify fun a => hadd a _
  | cons first rest => exact .modify (h.reportAll (fun x : String × Position => .unknownMacroArg x.1) (·.2) _)

namespace Naming

variable {R : Assembly → Assembly → Prop} [IsPreorder Assembly R] (h : Naming R)
include h

theorem isChosen (s : Statement) : (isChosen s).Keeps R := by
  unfold SpectrumAsm.isChosen
  split
  · exact h.asked (evalTruth_asked _)
  · exact h.asked (evalTruth_asked _)
  · exact Step.Keeps.get.bind fun _ => .pure _
  · exact Step.Keeps.get.bind fun _ => .pure _
  · exact .pure _

theorem checkSections (before : Statement) (sections : List Section) : (checkSections before sections).Keeps R := by
  have hreport (fault : Fault) : (SpectrumAsm.report fault).Keeps R := .modify fun a => h.report a fault
  induction sections generalizing before with
  | nil => exact .pure _
  | cons s sections ih =>
    refine .bind (.modify fun a => h.note (.setPos a s.line.pos) rfl) fun _ => ?_
    split
    case' h_1 => refine (hreport _).bind fun _ => ?_
    case' h_2 => rw [if_neg Bool.false_ne_true]
    all_goals
      dsimp only
      split
      · exact (hreport _).bind fun _ => (ih s.header).bind fun _ => .pure _
      · exact (ih s.header).bind fun _ => .pure _

theorem pickIf (header : Statement) (lines : List SourceLine) {later : Walk (Option (List SourceLine))}
    (hlater : later.Keeps R) : (pickIf header lines later).Keeps R := by
  refine (h.isChosen header).run.bind fun outcome => ?_
  obtain fault | _ | _ := outcome
  · exact .bind (.modify fun a => h.report a fault) fun _ => .pure _
  · exact hlater
  · exact .pure _

theorem pickSection (sections : List Section) : (pickSection sections).Keeps R := by
  induction sections with
  | nil => exact .pure _
  | cons s sections ih =>
    exact .bind (.modify fun a => h.note (.setPos a s.line.pos) rfl) fun _ => h.pickIf s.header s.body ih

theorem pickLines (header : Statement) (body : List SourceLine) : (pickLines header body).Keeps R := by
  refine (h.checkSections header _).bind fun sound => ?_
  split
  · exact h.pickIf header _ (h.pickSection _)
  · exact .pure _

end Naming

theorem LoopKind.finished_keeps [IsPreorder Assembly R]
    (hasked : ∀ {α : Type} {x : Step α}, x.Keeps Asked → x.Keeps R) {σ : Type} (kind : LoopKind σ) :
    kind.rule.finished.Keeps R := by
  cases kind with
  | untilTrue e => exact hasked (evalTruth_asked e)
  | _ => exact .pure _

theorem checkBounds_asked (first last step : Value) : (checkBounds first last step).Keeps Asked := by
  unfold checkBounds
  dsimp only
  split
  · exact fun a => .refl a
  split
  · exact fun a => .refl a
  · exact .pure _

theorem evalBounds_asked (first last : Expr) (step : Option Expr) : (evalBounds first last step).Keeps Asked := by
  refine (evalNow_asked first).bind fun first => (evalNow_asked last).bind fun last => ?_
  cases step with
  | none => exact checkBounds_asked first last _
  | some e => exact (evalNow_asked e).bind (checkBounds_asked first last)

/-- The variable of a counting loop: a symbol of an open scope that is a variable and has a value. -/
def Counts (id : Nat) (key : String) (a : Assembly) : Prop := id ∈ a.symbols.active ∧ id < a.symbols.nextScope ∧
    ∃ s, (a.symbols.symbolsAt (.scope id)).get? key = some s ∧ s.kind = .var ∧ s.value.isSome = true

theorem openLoop_calm (a : Assembly) (key : String) (v : Value) : Calm (a.openScope .loop) (a.openLoop key v) := by
  have hfree : (a.openScope .loop).symbols.isTaken (.scope a.symbols.nextScope) key = false := by
    rw [isTaken, Assembly.openScope, symbolsAt_openScope]
    simp [symbolsAt, nextScope, NameTable.contains, NameTable.get?]
  have hopen : Slot.scope a.symbols.nextScope ∈ (a.openScope .loop).symbols.varSlots :=
    mem_append_left _ (mem_map_of_mem mem_cons_self)
  exact .symbols (.add hfree) (.add hopen hfree) fun _ _ hb => hb.of_addSymbol_some rfl

theorem Counts.openLoop (a : Assembly) (key : String) (v : Value) :
    Counts a.symbols.nextScope key (a.openLoop key v) := by
  refine ⟨mem_cons_self, ?_, ⟨key, .var, some v, a.pos⟩, ?_, rfl, rfl⟩
  · have hnext := (openLoop_calm a key v).tame.table.nextScope
    rw [hnext, ← enterScope_zero, nextScope_enterScope]
    omega
  · simp only [Assembly.openLoop, Assembly.openScope, addSymbol, modifySymbols,
      modifyScope, openScope, nextScope, symbolsAt,
      Array.getElem?_modify, Array.getElem?_push_size, if_pos, Option.map_some, Option.getD_some]
    exact NameTable.get?_insert_self _ _ _

theorem run_counting (last step : Value) (pass : Int64) (v : Value) : ∃ outcome, ∀ id key a,
    ((countingRule id key last step).proceed pass v).run.run a = (outcome, match outcome with
      | .ok (some v) => { a with symbols := a.symbols.assign (.scope id) key v }
      | _ => a) := by
  unfold countingRule countTo combine
  dsimp only
  split <;> simp only [Step.run_ofExcept_bind, pure_bind] <;> repeat' split
  all_goals exact ⟨_, fun _ _ _ => rfl⟩

/-- The variable a loop counts with. -/
def LoopKind.counted? {σ : Type} : LoopKind σ → Option (Nat × String)
  | .counting id key _ _ => some (id, key)
  | _ => none

theorem LoopKind.proceed_keeps [IsPreorder Assembly R]
    (hasked : ∀ {α : Type} {x : Step α}, x.Keeps Asked → x.Keeps R) {σ : Type} (kind : LoopKind σ)
    (hassign : ∀ id key, kind.counted? = some (id, key) → ∀ (a : Assembly) (v : Value),
      R a { a with symbols := a.symbols.assign (.scope id) key v }) (pass : Int64) (v : σ) :
    (kind.rule.proceed pass v).Keeps R := by
  cases kind with
  | counted count => exact .pure _
  | whileTrue e => exact (hasked (evalTruth_asked e)).bind fun _ => .pure _
  | untilTrue e => exact .pure _
  | counting id key last step =>
    intro a
    obtain ⟨outcome, hrun⟩ := run_counting last step pass v
    show R a (((countingRule id key last step).proceed pass v).run.run a).2
    rw [hrun]
    rcases outcome with fault | _ | v
    · exact refl a
    · exact refl a
    · exact hassign id key rfl a v

/-! ## Small changes -/

/-- Bookkeeping, definitions, and new values of the variable that is counted with. -/
inductive Tidies (counted : Option (Nat × String)) : Assembly → Assembly → Prop where
  | refl (a : Assembly) : Tidies counted a a
  | trans {a b c : Assembly} (h : Tidies counted a b) (h' : Tidies counted b c) : Tidies counted a c
  | note {a b : Assembly} (h : Noted a b) (hd : b.macroDepth = a.macroDepth) : Tidies counted a b
  | define (a : Assembly) (name : String) (kind : SymbolKind) (value : Value) :
    Tidies counted a (a.define name kind (some value)).2
  | closeInstance (a : Assembly) : Tidies counted a { a with opened := none }
  | addMacro (a : Assembly) (d : MacroDef) : Tidies counted a { a with symbols := a.symbols.addMacro d }
  | addStruct (a : Assembly) (d : StructDef) (hfits : ∀ line ∈ d.body, fitsStruct line = true) :
    Tidies counted a { a with symbols := a.symbols.addStruct d }
  | openLoop (a : Assembly) (key : String) (v : Value) : Tidies counted (a.openScope .loop) (a.openLoop key v)
  | assign {id : Nat} {key : String} (h : counted = some (id, key)) (a : Assembly) (v : Value) :
    Tidies counted a { a with symbols := a.symbols.assign (.scope id) key v }

namespace Tidies

variable {counted : Option (Nat × String)} {a b : Assembly}

instance : IsPreorder Assembly (Tidies counted) where
  refl := refl
  trans _ _ _ := trans

theorem naming : Naming (Tidies counted) := ⟨note, define⟩

theorem report (a : Assembly) (fault : Fault) : Tidies counted a (a.report fault) := naming.report a fault

theorem atInvocation (a : Assembly) (line : SourceLine) : Tidies none a (a.atInvocation line) :=
  .trans (.closeInstance a) (.trans (naming.bindLineLabel _ line) (.note (.recordLine _ _) rfl))

theorem active (h : Tidies counted a b) : b.symbols.active = a.symbols.active := by
  induction h with
  | trans _ _ ih ih' => exact ih'.trans ih
  | note h _ =>
    obtain ⟨_, hsymbols⟩ := h.symbols
    rw [hsymbols]
  | define a name kind value => exact (define_calm a name kind value).tame.table.active
  | openLoop a key v => exact (openLoop_calm a key v).tame.table.active
  | _ => rfl

end Tidies

/-! ## Frames -/

def Call.counted? : Call → Option (Nat × String)
  | .passes loop _ _ => loop.kind.counted?
  | _ => none

/-- The variable that is counted with, if there is one, is a symbol of an open scope. -/
def Assembly.HasVariable (a : Assembly) (counted : Option (Nat × String)) : Prop := ∀ x ∈ counted, Counts x.1 x.2 a

theorem Assembly.HasVariable.none (a : Assembly) : a.HasVariable none := fun _ h => by cases h

/-- What is done between `a` and `b`, in front of a call, and between `c` and `d`, behind it. -/
inductive Around (call : Call) (a b c d : Assembly) : Prop where
  | even (hin : Tidies none a b) (hout : Tidies none c d)
  /-- at the end of the scope its patches are resolved -/
  | scope {e f : Assembly} (kind : ScopeKind) (pass : Int64) (hkind : kind ≠ .loop)
    (hin : Tidies call.counted? (a.enterScope kind pass) b) (hlabel : Tidies none c e)
    (hend : Tidies none (e.resolveScope a.symbols.nextScope) f) (hout : Tidies none f.closeScope d)
  /-- the scope of the variable of a loop is only closed -/
  | loop (hin : Tidies none (a.enterScope .loop 0) b) (hout : d = c.closeScope)
  | module {name : String} {t : SymbolTable} {e : Assembly} (henter : a.symbols.enterModule name = .ok t)
    (hin : b = { a with symbols := t }) (hlabel : Tidies none c e)
    (hout : d = { e with symbols := e.symbols.leaveModule })
  | expansion {m : MacroDef} {pos : Position} (hcall : call.expands = true) (hin : b = a.openExpansion)
    (hout : d = c.closeExpansion a.symbols.nextScope m pos)

/-- A call is over after small changes, or after a pass that there is not; or it makes a further call that counts
with a variable of its own, if any, and goes on behind it with no other variable than its own. -/
def Next.Framed (call : Call) (a : Assembly) (next : Next) : Prop :=
  ∃ s, Tidies none a s ∧ match next with
    | .done b => b = s ∨ ∃ pass c, Tidies call.counted? (s.enterScope .pass pass) c ∧ Tidies none c.closeScope b
    | .call inner b resume => b.HasVariable inner.counted? ∧
      ∀ c, ((resume c).1.counted? = none ∨ (resume c).1.counted? = call.counted?) ∧ Around call s b c (resume c).2

namespace Next.Framed

variable {call : Call} {a b : Assembly}

theorem after {next : Next} (h : next.Framed call b) (hb : Tidies none a b) : next.Framed call a := by
  obtain ⟨s, hs, hnext⟩ := h
  exact ⟨s, hb.trans hs, hnext⟩

theorem ended (h : Tidies none a b) : (done b).Framed call a := ⟨b, h, .inl rfl⟩

/-- A further call that counts with no variable, behind which lines or nothing follow. -/
theorem plain {s : Assembly} {inner : Call} {resume : Assembly → Call × Assembly} (h : Tidies none a s)
    (hinner : inner.counted? = none) (hrest : ∀ c, (resume c).1.counted? = none ∧ Around call s b c (resume c).2) :
    (Next.call inner b resume).Framed call a :=
  ⟨s, h, ⟨hinner ▸ .none b, fun c => ⟨.inl (hrest c).1, (hrest c).2⟩⟩⟩

end Next.Framed

variable {call : Call} {a : Assembly}

theorem Around.still (a c : Assembly) : Around call a a c c := .even (.refl a) (.refl c)

section
variable (body : List SourceLine) (close : SourceLine) (a : Assembly)

theorem nextChoice_framed (header : Statement) : (nextChoice header body a).Framed call a := by
  have hpick : Tidies none a ((pickLines header body).run a).2 := Tidies.naming.pickLines header body a
  unfold nextChoice
  split
  · next hrun =>
    rw [hrun] at hpick
    exact .ended hpick
  · next hrun =>
    rw [hrun] at hpick
    exact .plain hpick rfl fun c => ⟨rfl, .still _ _⟩

theorem nextModule_framed (name : Option String) : (nextModule name body close a).Framed call a := by
  unfold nextModule
  split
  · exact .ended (.report a _)
  split
  · exact .ended (.report a _)
  · next he => exact .plain (.refl a) rfl fun c => ⟨rfl, .module he rfl (Tidies.naming.bindEndLabel c _ _) rfl⟩

theorem nextFor_framed (var : String) (first last : Expr) (step : Option Expr) :
    (nextFor var first last step body close a).Framed call a := by
  have hbounds : Tidies none a ((evalBounds first last step).run.run a).2 :=
    Tidies.naming.asked (evalBounds_asked first last step) a
  unfold nextFor
  split
  · exact .ended (.report a _)
  split
  · next hrun =>
    rw [hrun] at hbounds
    exact .ended (hbounds.trans (.report _ _))
  · next b hrun =>
    rw [hrun] at hbounds
    refine ⟨b, hbounds, ⟨fun x hx => ?_, fun c => ⟨.inl rfl, .loop ?_ rfl⟩⟩⟩
    · cases hx
      exact Counts.openLoop b (upcase var) _
    · rw [enterScope_zero]
      exact .openLoop b _ _

theorem nextLabelled_framed (s : Statement) : (nextLabelled s body close a).Framed call a := by
  have hloop (kind : LoopKind Unit) (b : Assembly) (hkind : kind.counted? = none) (hb : Tidies none a b) :
      (nextLoop kind () body close b id).Framed call a := .plain hb hkind fun c => ⟨rfl, .still _ _⟩
  cases s with
  | ifTrue e => exact nextChoice_framed body a (.ifTrue e)
  | ifUsed s => exact nextChoice_framed body a (.ifUsed s)
  | ifUnused s => exact nextChoice_framed body a (.ifUnused s)
  | loop count =>
    have hcount : Tidies none a ((evalInt count).run.run a).2 := Tidies.naming.asked (evalInt_asked count) a
    unfold nextLabelled
    dsimp only
    split
    · next hrun =>
      rw [hrun] at hcount
      exact .ended (hcount.trans (.report _ _))
    · next hrun =>
      rw [hrun] at hcount
      split
      · exact .ended (hcount.trans (.report _ _))
      · exact hloop _ _ rfl hcount
  | whileTrue e => exact hloop (.whileTrue e) a rfl (.refl a)
  | repeatBody =>
    unfold nextLabelled
    dsimp only
    split
    · exact hloop _ a rfl (.refl a)
    · exact .ended (.refl a)
  | forEach var first last step => exact nextFor_framed body close a var first last step
  | proc =>
    refine .plain (.refl a) rfl fun c => ⟨rfl, .scope .proc 0 (by decide) ?_ (Tidies.naming.bindEndLabel c _ _)
      (.refl _) (.refl _)⟩
    rw [enterScope_zero]
    exact .refl _
  | _ => exact .ended (.refl a)

theorem nextBlock_framed (line : SourceLine) (s : Statement) : (nextBlock line s body close a).Framed call a := by
  have hlabel (s : Statement) : (nextLabelled s body close (a.bindLineLabel line)).Framed call a :=
    (nextLabelled_framed body close _ s).after (Tidies.naming.bindLineLabel a line)
  have htake : Tidies none a (a.takeLabel line).2 := Tidies.naming.takeLabel a line
  cases s with
  | macroDef params =>
    exact .ended (htake.trans ((Tidies.naming.defineMacro .addMacro _ params body close).reporting .report _))
  | structDef =>
    exact .ended (htake.trans ((Tidies.naming.defineStruct .addStruct _ body close).reporting .report _))
  | moduleDef arg =>
    unfold nextBlock
    dsimp only
    split
    · exact (nextModule_framed body close _ _).after (Tidies.naming.flushLabel a)
    · exact (nextModule_framed body close _ _).after (htake.trans (Tidies.naming.flushLabel _))
  | _ =>
    unfold nextBlock
    exact hlabel _

end

/-! ### Passes -/

section
variable {σ : Type} (loop : LoopCall σ) (n : Nat) (carried : σ) (a : Assembly)

theorem LoopCall.decide_tidies :
    Tidies loop.kind.counted? (a.enterScope .pass (Int64.ofNat (n + 1))) (loop.decide n carried a).2 :=
  .trans (.note (.moveTo _ loop.start) rfl)
    ((loop.kind.proceed_keeps Tidies.naming.asked (fun _ _ => .assign) _ carried).reportingOr .report _)

theorem closePass_tidies (close : SourceLine) (kind : LoopKind σ) :
    ∃ b, Tidies none a b ∧ ((closePass close kind.rule.finished).run a).2 = b.closeScope := by
  rw [run_closePass]
  split
  · exact ⟨a, .refl a, rfl⟩
  · exact ⟨_, .trans (.note (.moveTo a close.pos) rfl)
      ((kind.finished_keeps Tidies.naming.asked).reportingOr .report _), rfl⟩

/-- The lines of a pass have been walked: at its end patches are resolved, and the loop goes on or not. -/
theorem LoopCall.resume_around {b : Assembly}
    (hb : Tidies loop.kind.counted? (a.enterScope .pass (Int64.ofNat (n + 1))) b)
    (v : σ) (c : Assembly) (hcall : call.counted? = loop.kind.counted?) :
    ((loop.resume n v b.symbols.top? c).1.counted? = none ∨
      (loop.resume n v b.symbols.top? c).1.counted? = call.counted?) ∧
    Around call a b c (loop.resume n v b.symbols.top? c).2 := by
  have htop : b.symbols.top? = some a.symbols.nextScope := by
    rw [SymbolTable.top?, hb.active]
    rfl
  have hlabel : Tidies none c (c.bindEndLabel loop.close.label loop.close.pos) := Tidies.naming.bindEndLabel c _ _
  obtain ⟨e, hend, hclosed⟩ := closePass_tidies
    ((c.bindEndLabel loop.close.label loop.close.pos).resolveScope a.symbols.nextScope) loop.close loop.kind
  rw [htop, LoopCall.resume]
  have hrun : (endPass loop.close loop.kind.rule.finished (some a.symbols.nextScope)).run c =
    (closePass loop.close loop.kind.rule.finished).run
      ((c.bindEndLabel loop.close.label loop.close.pos).resolveScope a.symbols.nextScope) := rfl
  rw [hrun]
  generalize (closePass loop.close loop.kind.rule.finished).run _ = result at hclosed
  obtain ⟨done, d⟩ := result
  dsimp only at hclosed ⊢
  subst hclosed
  rw [← hcall] at hb
  have haround {d : Assembly} (hd : Tidies none e.closeScope d) : Around call a b c d :=
    .scope .pass _ (by decide) hb hlabel hend hd
  split
  · exact ⟨.inl rfl, haround (.trans (.note (.setPos _ loop.start) rfl) (.report _ _))⟩
  split
  · exact ⟨.inl rfl, haround (.refl _)⟩
  · exact ⟨.inr hcall.symm, haround (.refl _)⟩

theorem LoopCall.next_framed : (loop.next n carried a).Framed (.passes loop n carried) a := by
  have hdecide := loop.decide_tidies n carried a
  unfold LoopCall.next
  split
  · next hrun =>
    rw [hrun] at hdecide
    exact ⟨a, .refl a, .inr ⟨_, _, hdecide, .refl _⟩⟩
  · next hrun =>
    rw [hrun] at hdecide
    split
    · exact ⟨a, .refl a, .inr ⟨_, _, hdecide, .report _ _⟩⟩
    · exact ⟨a, .refl a, ⟨.none _, fun c => loop.resume_around n a hdecide _ c rfl⟩⟩

end

/-! ### Calls -/

theorem nextExpansion_framed (d : MacroDef) (args : List Operand) (pos : Position) (a : Assembly) :
    (nextExpansion d args pos a).Framed (.expand d args pos) a := by
  unfold nextExpansion
  dsimp only
  split
  · exact .ended (.report a _)
  split
  · exact .ended (.report a _)
  · exact .plain (.refl a) rfl fun c => ⟨rfl, .expansion rfl rfl rfl⟩

/-- All that calls do, single lines apart. -/
theorem Call.next_framed (hline : ∀ line, call = .line line → a.invoked? line ≠ none) :
    (call.next a).Framed call a := by
  cases call with
  | nothing => exact .ended (.refl a)
  | lines lines =>
    cases lines with
    | nil => exact .ended (.refl a)
    | cons line lines =>
      have hmove : Tidies none a (a.moveTo line.pos) := .note (.moveTo a _) rfl
      have hclose := hmove.trans (.closeInstance _)
      unfold Call.next
      dsimp only
      split
      · exact .ended (.refl a)
      split
      · split
        · exact .ended (hclose.trans (.report _ _))
        · exact .plain hclose rfl fun c => ⟨rfl, .still _ _⟩
      · exact .plain (hmove.trans (.report _ _)) rfl fun c => ⟨rfl, .still _ _⟩
      · exact .plain hmove rfl fun c => ⟨rfl, .still _ _⟩
  | line line =>
    unfold Call.next
    dsimp only
    split
    · next hnone => exact absurd hnone (hline line rfl)
    · exact .plain (.atInvocation a line) rfl fun c => ⟨rfl, .still _ _⟩
  | expand d args pos => exact nextExpansion_framed d args pos a
  | block line s body close => exact nextBlock_framed body close a line s
  | passes loop n carried => exact loop.next_framed n carried a

theorem Call.next_cases (call : Call) (a : Assembly) :
    (∃ line, call = .line line ∧ a.invoked? line = none ∧ call.next a = .done ((walkSingle none line).run a).2) ∨
      (call.next a).Framed call a := by
  by_cases hsingle : ∃ line, call = .line line ∧ a.invoked? line = none
  · obtain ⟨line, rfl, hnone⟩ := hsingle
    exact .inl ⟨line, rfl, hnone, Call.next_line hnone⟩
  · exact .inr (Call.next_framed fun line hline hnone => hsingle ⟨line, hline, hnone⟩)

/-! ## What a call keeps -/

/-- What is done for definitions and blocks leads to a related state. -/
structure BlockKeeping (R : Assembly → Assembly → Prop) : Prop where
  addMacro : ∀ (a : Assembly) (d : MacroDef), R a { a with symbols := a.symbols.addMacro d }
  addStruct : ∀ (a : Assembly) (d : StructDef), (∀ line ∈ d.body, fitsStruct line = true) →
    R a { a with symbols := a.symbols.addStruct d }
  enterScope : ∀ (a : Assembly) (kind : ScopeKind) (pass : Int64), R a (a.enterScope kind pass)
  resolveScope : ∀ (a : Assembly) (id : Nat), R a (a.resolveScope id)
  closeScope : ∀ a : Assembly, R a a.closeScope
  enterModule : ∀ {a : Assembly} {name : String} {t : SymbolTable}, a.symbols.enterModule name = .ok t →
    R a { a with symbols := t }
  leaveModule : ∀ a : Assembly, R a { a with symbols := a.symbols.leaveModule }
  openLoop : ∀ (a : Assembly) (key : String) (v : Value), R (a.openScope .loop) (a.openLoop key v)
  assign : ∀ (a : Assembly) (id : Nat) (key : String) (v : Value),
    R a { a with symbols := a.symbols.assign (.scope id) key v }

/-- All that is done between calls, single lines and the nesting of macros apart, leads to a related
state. -/
structure Housekeeping (R : Assembly → Assembly → Prop) : Prop extends Naming R, BlockKeeping R where
  closeInstance : ∀ a : Assembly, R a { a with opened := none }

/-- A call goes on in a related state, and so it does behind the first call it makes. -/
def Next.Keeps (R : Assembly → Assembly → Prop) (a : Assembly) : Next → Prop
  | .done b => R a b
  | .call _ b resume => R a b ∧ ∀ c, R c (resume c).2

variable {R : Assembly → Assembly → Prop}

namespace Housekeeping

open Naming (chain)

variable (h : Housekeeping R) [IsPreorder Assembly R]
include h

theorem tidies {counted : Option (Nat × String)} {a b : Assembly} (ht : Tidies counted a b) : R a b := by
  induction ht with
  | refl a => exact refl a
  | trans _ _ ih ih' => exact chain ih ih'
  | note hn hd => exact h.note hn hd
  | define a name kind value => exact h.define a name kind value
  | closeInstance a => exact h.closeInstance a
  | addMacro a d => exact h.addMacro a d
  | addStruct a d hfits => exact h.addStruct a d hfits
  | openLoop a key v => exact h.openLoop a key v
  | assign _ a v => exact h.assign a _ _ v

theorem atInvocation (a : Assembly) (line : SourceLine) : R a (a.atInvocation line) :=
  h.tidies (.atInvocation a line)

theorem decide {σ : Type} (loop : LoopCall σ) (n : Nat) (carried : σ) (a : Assembly) :
    R a (loop.decide n carried a).2 :=
  chain (h.enterScope a .pass _) (h.tidies (loop.decide_tidies n carried a))

theorem around (hdepth : call.expands = false ∨ ∀ (a : Assembly) (n : Nat), R a { a with macroDepth := n })
    {a b c d : Assembly} (hw : Around call a b c d) : R a b ∧ R c d := by
  cases hw with
  | even hin hout => exact ⟨h.tidies hin, h.tidies hout⟩
  | scope kind pass _ hin hlabel hend hout =>
    exact ⟨chain (h.enterScope a kind pass) (h.tidies hin), chain (chain (h.tidies hlabel) (h.resolveScope _ _))
      (chain (h.tidies hend) (chain (h.closeScope _) (h.tidies hout)))⟩
  | loop hin hout => exact ⟨chain (h.enterScope a .loop 0) (h.tidies hin), hout ▸ h.closeScope c⟩
  | module henter hin hlabel hout =>
    exact ⟨hin ▸ h.enterModule henter, hout ▸ chain (h.tidies hlabel) (h.leaveModule _)⟩
  | @expansion m pos hcall hin hout =>
    have hdepth := hdepth.resolve_left (by simp [hcall])
    have hopen := h.enterScope a .expansion 0
    rw [enterScope_zero] at hopen
    subst hin hout
    exact ⟨chain hopen (hdepth _ _), chain (chain (h.bindEndLabel c m.endLabel pos) (h.resolveScope _ _))
      (chain (h.closeScope _) (hdepth _ _))⟩

theorem next (hdepth : call.expands = false ∨ ∀ (a : Assembly) (n : Nat), R a { a with macroDepth := n })
    (hline : ∀ line, call = .line line → R a ((walkSingle none line).run a).2) : (call.next a).Keeps R a := by
  rcases call.next_cases a with ⟨line, hcall, -, hnext⟩ | hframed
  · rw [hnext]
    exact hline line hcall
  generalize call.next a = next at hframed ⊢
  obtain ⟨s, hs, hnext⟩ := hframed
  cases next with
  | done b =>
    rcases hnext with rfl | ⟨pass, c, hc, hb⟩
    · exact h.tidies hs
    · exact chain (chain (h.tidies hs) (h.enterScope s .pass pass))
        (chain (h.tidies hc) (chain (h.closeScope c) (h.tidies hb)))
  | call inner b resume =>
    exact ⟨chain (h.tidies hs) (h.around hdepth (hnext.2 b).2).1, fun c => (h.around hdepth (hnext.2 c).2).2⟩

end Housekeeping

/-! ## The lines visited -/

section
open List

variable {a : Assembly}

/-- A property of the lines visited so far and the state, on the way from one call to the next. -/
def Next.Logs (I : List (SourceLine × Assembly) → Assembly → Prop) (call : Call) (a : Assembly)
    (log : List (SourceLine × Assembly)) : Next → Prop
  | .done b => I (log ++ (call.own a).visits) b
  | .call _ b resume => I (log ++ (call.around a {}).visits) b ∧ ∀ log c, I log c → I log (resume c).2

section
variable (call : Call) (a : Assembly)

theorem Call.visits_around (t : Tally) : (call.around a t).visits = (call.around a {}).visits ++ t.visits := by
  cases call <;> rfl

theorem Call.own_cases : (call.own a).visits = [] ∨ ∃ line, call = .line line ∧ (call.own a).visits = [(line, a)] := by
  cases call <;> simp [Call.own]

theorem Call.around_cases :
    (call.around a {}).visits = [] ∨ ∃ line, call = .line line ∧ (call.around a {}).visits = [(line, a)] := by
  cases call <;> simp [Call.around]

end

section
variable {α : Type} {xs ys before after : List α} {x : α}

theorem split_append (h : xs ++ ys = before ++ x :: after) :
    (∃ rest, xs = before ++ x :: rest) ∨ ∃ front, before = xs ++ front ∧ ys = front ++ x :: after := by
  rcases append_eq_append_iff.1 h with ⟨front, hb, hy⟩ | ⟨back, hx, hback⟩
  · exact .inr ⟨front, hb, hy⟩
  · cases back with
    | nil => exact .inr ⟨[], by simpa using hx.symm, by simpa using hback.symm⟩
    | cons y rest =>
      cases hback
      exact .inl ⟨rest, hx⟩

end

/-- What every call keeps, with the lines it visits noted down, is kept by whole walks, also up to each
line they come to. -/
theorem Walks.logged {I : List (SourceLine × Assembly) → Assembly → Prop}
    (hstep : ∀ (call : Call) (a : Assembly) (log : List (SourceLine × Assembly)), I log a →
      (call.next a).Logs I call a log) {call : Call} {b : Assembly} {t : Tally}
    (h : Walks call a t b) {log : List (SourceLine × Assembly)} (hI : I log a) :
    I (log ++ t.visits) b ∧ ∀ before visit after, t.visits = before ++ visit :: after → I (log ++ before) visit.2 := by
  have hfirst {call : Call} {a : Assembly} {log own before after : List (SourceLine × Assembly)}
      {visit : SourceLine × Assembly} (hI : I log a) (hown : own = [] ∨ ∃ line, call = .line line ∧ own = [(line, a)])
      (hsplit : own = before ++ visit :: after) : I (log ++ before) visit.2 := by
    rcases hown with rfl | ⟨line, -, rfl⟩
    · simp at hsplit
    · cases before with
      | nil => cases hsplit; rwa [append_nil]
      | cons _ _ => simp at hsplit
  induction h generalizing log with
  | @done call a b h =>
    have hnext := hstep call a log hI
    rw [h] at hnext
    exact ⟨hnext, fun before visit after => hfirst hI (call.own_cases a)⟩
  | @call call inner a b c d resume t u h _ _ ihinner ihrest =>
    have hnext := hstep call a log hI
    rw [h] at hnext
    obtain ⟨hinner, hvisits⟩ := ihinner hnext.1
    obtain ⟨hrest, hvisits'⟩ := ihrest (hnext.2 _ c hinner)
    have hall : (call.around a t ++ u).visits = (call.around a {}).visits ++ (t.visits ++ u.visits) := by
      rw [← append_assoc, ← call.visits_around a t]
      rfl
    rw [hall]
    refine ⟨by simpa using hrest, fun before visit after hsplit => ?_⟩
    rcases split_append hsplit with ⟨_, hown⟩ | ⟨front, rfl, hlater⟩
    · exact hfirst hI (call.around_cases a) hown
    rcases split_append hlater with ⟨_, hin⟩ | ⟨front, rfl, hin⟩
    · simpa using hvisits front visit _ hin
    · simpa using hvisits' front visit _ hin

end

/-- What every call keeps is kept by whole walks, also up to each line they come to. -/
theorem Walks.keeps [IsPreorder Assembly R] (hstep : ∀ (call : Call) (a : Assembly), (call.next a).Keeps R a)
    {call : Call} {a b : Assembly} {t : Tally} (h : Walks call a t b) : R a b ∧ ∀ visit ∈ t.visits, R a visit.2 := by
  have hlogs (call : Call) (b : Assembly) (log : List (SourceLine × Assembly)) (hb : R a b) :
      (call.next b).Logs (fun _ => R a) call b log := by
    have hnext := hstep call b
    generalize call.next b = next at hnext
    cases next with
    | done c => exact Naming.chain hb hnext
    | call inner c resume => exact ⟨Naming.chain hb hnext.1, fun _ d hd => Naming.chain hd (hnext.2 d)⟩
  obtain ⟨hb, hvisits⟩ := @Walks.logged a _ hlogs call b t h [] (refl a)
  refine ⟨hb, fun visit hv => ?_⟩
  obtain ⟨before, after, hsplit⟩ := append_of_mem hv
  exact hvisits before visit after hsplit

end SpectrumAsm
