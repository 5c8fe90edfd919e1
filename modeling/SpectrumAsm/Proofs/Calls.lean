/-
The walk through a program as calls that make further calls.

A call walks lines, a single line, a block, an expansion or the passes of a loop. `Call.next` carries it out
up to the first further call it makes, and says how it goes on behind that one. Nothing is counted down:
`Walks` holds of the calls that come to an end, with a tally of what happens on the way. `run_walkBlock` says
that the walker of a block does what its call does.
-/
import SpectrumAsm.Proofs.Blocks
import SpectrumAsm.Proofs.Passes

namespace SpectrumAsm

variable {l : SourceLine} {rest : List SourceLine}

/-! ## Calls -/

/-- What is done about the lines of a program. -/
inductive Call : Type 1 where
  | nothing
  | lines (lines : List SourceLine)
  | line (line : SourceLine)
  /-- an expansion of a macro, if its arguments and the nesting allow it -/
  | expand (d : MacroDef) (args : List Operand) (pos : Position)
  | block (line : SourceLine) (s : Statement) (body : List SourceLine) (close : SourceLine)
  /-- a loop of which `n` passes are over -/
  | passes {σ : Type} (loop : LoopCall σ) (n : Nat) (carried : σ)

/-- What a call comes to: it is over, or it makes another call and goes on behind it. -/
inductive Next : Type 1 where
  | done (b : Assembly)
  | call (inner : Call) (b : Assembly) (resume : Assembly → Call × Assembly)

def Next.last (call : Call) (b : Assembly) : Next := .call call b fun c => (.nothing, c)

/-- A call behind which the state is put in order. -/
def Next.within (call : Call) (b : Assembly) (leave : Assembly → Assembly) : Next :=
  .call call b fun c => (.nothing, leave c)

/-! ### Lines and expansions -/

def Assembly.atInvocation (a : Assembly) (line : SourceLine) : Assembly :=
  (({ a with opened := none } : Assembly).bindLineLabel line).recordLine line.pos

def Assembly.invoked? (a : Assembly) (line : SourceLine) : Option (MacroDef × List Operand) :=
  match line.stmt with
  | some (.invoke name args) =>
    if (Stmt.invoke name args).hasParam then none
    else ((a.atInvocation line).symbols.findMacro? name).map (·, args)
  | _ => none

def nextExpansion (d : MacroDef) (args : List Operand) (pos : Position) (a : Assembly) : Next :=
  let limit := a.setup.options.maxMacroDepth
  if args.length > d.params.length then
    .done (a.report (.tooManyMacroArgs d.name d.params.length args.length))
  else if a.macroDepth ≥ limit then .done (a.report (.macroDepth d.name limit))
  else .within (.lines (Bindings.substituteLines ⟨d.params, args⟩ d.body)) a.openExpansion
    fun b => b.closeExpansion a.symbols.nextScope d pos

/-! ### Blocks -/

def nextLoop {σ : Type} (kind : LoopKind σ) (first : σ) (body : List SourceLine) (close : SourceLine)
    (a : Assembly) (leave : Assembly → Assembly) : Next :=
  .within (.passes ⟨kind, body, close, a.pos, a.diagnostics.size⟩ 0 first) a leave

/-- A counting loop: it is refused, or its variable is made and its passes begin. -/
def nextFor (var : String) (first last : Expr) (step : Option Expr) (body : List SourceLine)
    (close : SourceLine) (a : Assembly) : Next :=
  if a.symbols.isVisible var then .done (a.report (.forVariable var))
  else
    match (evalBounds first last step).run.run a with
    | (.error fault, b) => .done (b.report fault)
    | (.ok (first, last, step), b) =>
      let integral := first.isIntegral && last.isIntegral && step.isIntegral
      let first := first.forCounting integral
      let kind := .counting b.symbols.nextScope (Text.upcase var) (last.forCounting integral)
        (step.forCounting integral)
      nextLoop kind first body close (b.openLoop (Text.upcase var) first) Assembly.closeScope

def nextModule (name : Option String) (body : List SourceLine) (close : SourceLine) (a : Assembly) : Next :=
  match name with
  | none => .done (a.report .moduleName)
  | some name =>
    match a.symbols.enterModule name with
    | .error fault => .done (a.report fault)
    | .ok symbols => .within (.lines body) { a with symbols } fun b =>
      let b := b.bindEndLabel close.label close.pos
      { b with symbols := b.symbols.leaveModule }

def nextChoice (header : Statement) (body : List SourceLine) (a : Assembly) : Next :=
  match (pickLines header body).run a with
  | (none, b) => .done b
  | (some lines, b) => .last (.lines lines) b

/-- A block that defines the label of its line. -/
def nextLabelled (s : Statement) (body : List SourceLine) (close : SourceLine) (a : Assembly) : Next :=
  match s with
  | .ifTrue _ | .ifUsed _ | .ifUnused _ => nextChoice s body a
  | .loop count =>
    match (evalInt count).run.run a with
    | (.error fault, b) => .done (b.report fault)
    | (.ok count, b) =>
      if count > b.setup.options.maxLoopIterations then .done (b.report .loopCount)
      else nextLoop (.counted count) () body close b id
  | .whileTrue condition => nextLoop (.whileTrue condition) () body close a id
  | .repeatBody =>
    match close.stmt with
    | some (.statement (.untilTrue condition)) => nextLoop (.untilTrue condition) () body close a id
    | _ => .done a
  | .forEach var first last step => nextFor var first last step body close a
  | .proc => .within (.lines body) (a.openScope .proc) fun b =>
    ((b.bindEndLabel close.label close.pos).resolveScope a.symbols.nextScope).closeScope
  | _ => .done a

def nextBlock (line : SourceLine) (s : Statement) (body : List SourceLine) (close : SourceLine)
    (a : Assembly) : Next :=
  match s with
  | .macroDef params =>
    let (name, b) := a.takeLabel line
    .done ((reporting (defineMacro name params body close)).run b).2
  | .structDef =>
    let (name, b) := a.takeLabel line
    .done ((reporting (defineStruct name body close)).run b).2
  | .moduleDef arg =>
    let (name, b) := match line.label.or arg with
      | some name => (some name, a)
      | none => a.takeLabel line
    nextModule name body close b.flushLabel
  | s => nextLabelled s body close (a.bindLineLabel line)

/-! ### Passes -/

section
variable {σ : Type}

/-- The lines of the pass behind `n` others have been walked in scope `id`. -/
def LoopCall.resume (loop : LoopCall σ) (n : Nat) (carried : σ) (id : Option Nat) (a : Assembly) : Call × Assembly :=
  match (endPass loop.close loop.kind.rule.finished id).run a with
  | (done, b) =>
    if (loop.frame fun _ => return ()).isOverLimit b then
      (.nothing, ({ b with pos := loop.start } : Assembly).report .tooManyLoopErrors)
    else if done then (.nothing, b)
    else (.passes loop (n + 1) carried, b)

/-- The pass behind `n` others: there is none, it is refused, or its lines are walked. -/
def LoopCall.next (loop : LoopCall σ) (n : Nat) (carried : σ) (a : Assembly) : Next :=
  match loop.decide n carried a with
  | (none, b) => .done b.closeScope
  | (some carried, b) =>
    if b.setup.options.maxLoopIterations.toInt.toNat ≤ n then .done (b.closeScope.report .loopOverflow)
    else .call (.lines loop.body) b (loop.resume n carried b.symbols.top?)

end

/-- What a call does up to the first further call. -/
def Call.next : Call → Assembly → Next
  | .nothing, a => .done a
  | .lines [], a => .done a
  | .lines (l :: rest), a =>
    if a.isInterrupted then .done a
    else
      let a := a.moveTo l.pos
      match l.role with
      | .opens kind s =>
        let a := { a with opened := none }
        match splitBlock kind [] rest with
        | none => .done (a.report (.missingEnd kind.closer))
        | some (body, close, rest) => .call (.block l s body close) a fun b => (.lines rest, b)
      | .orphan closer opener => .last (.lines rest) (a.report (.orphan closer opener))
      | .single => .call (.line l) a fun b => (.lines rest, b)
  | .line l, a =>
    match a.invoked? l with
    | none => .done ((walkSingle none l).run a).2
    | some (d, args) => .last (.expand d args l.pos) (a.atInvocation l)
  | .expand d args pos, a => nextExpansion d args pos a
  | .block l s body close, a => nextBlock l s body close a
  | .passes loop n carried, a => loop.next n carried a

theorem Call.next_single {a : Assembly} (hgoes : a.isInterrupted = false)
    (hrole : l.role = .single) :
    (Call.lines (l :: rest)).next a = .call (.line l) (a.moveTo l.pos) fun b => (.lines rest, b) := by
  unfold Call.next
  dsimp only
  rw [hgoes, hrole, if_neg Bool.false_ne_true]

theorem Call.next_line {a : Assembly} (h : a.invoked? l = none) :
    (Call.line l).next a = .done ((walkSingle none l).run a).2 := by
  unfold Call.next
  dsimp only
  rw [h]

/-- Whether a call is an expansion, for which the nesting of macros changes. -/
def Call.expands : Call → Bool
  | .expand _ _ _ => true
  | _ => false

theorem Call.expands_eq_true {call : Call} (h : call.expands = true) : ∃ d args pos, call = .expand d args pos := by
  cases call with
  | expand d args pos => exact ⟨d, args, pos, rfl⟩
  | _ => cases h

/-! ## Walks -/

/-- What happens during a call: how deep expansions nest, how many passes the longest loop has, and the single
lines, each with the state it is reached in. -/
structure Tally where
  nesting : Nat := 0
  passes : Nat := 0
  visits : List (SourceLine × Assembly) := []

namespace Tally

/-- What happens in two calls one after the other. -/
instance : Append Tally where
  append t u := ⟨max t.nesting u.nesting, max t.passes u.passes, t.visits ++ u.visits⟩

@[simp] theorem nesting_append (t u : Tally) : (t ++ u).nesting = max t.nesting u.nesting := rfl

@[simp] theorem passes_append (t u : Tally) : (t ++ u).passes = max t.passes u.passes := rfl

end Tally

/-- What a call adds to what happens in the first call it makes. -/
def Call.around (a : Assembly) : Call → Tally → Tally
  | .line l, t => { t with visits := (l, a) :: t.visits }
  | .expand _ _ _, t => { t with nesting := t.nesting + 1 }
  | .passes _ n _, t => { t with passes := max t.passes (n + 1) }
  | _, t => t

/-- What happens in a call that makes no further one. -/
def Call.own (a : Assembly) : Call → Tally
  | .line l => { visits := [(l, a)] }
  | _ => {}

/-- A call comes to an end. -/
inductive Walks : Call → Assembly → Tally → Assembly → Prop where
  | done {call : Call} {a b : Assembly} (h : call.next a = .done b) : Walks call a (call.own a) b
  | call {call inner : Call} {a b c d : Assembly} {resume : Assembly → Call × Assembly} {t u : Tally}
    (h : call.next a = .call inner b resume) (hinner : Walks inner b t c)
    (hrest : Walks (resume c).1 (resume c).2 u d) : Walks call a (call.around a t ++ u) d

namespace Walks

variable {call : Call} {a b c : Assembly} {t u : Tally}

theorem of_done (h : Walks call a t c) (hnext : call.next a = .done b) : t = call.own a ∧ c = b := by
  cases h with
  | done h =>
    cases h.symm.trans hnext
    exact ⟨rfl, rfl⟩
  | call h _ _ => cases h.symm.trans hnext

theorem of_call {inner : Call} {d : Assembly} {resume : Assembly → Call × Assembly} (h : Walks call a t d)
    (hnext : call.next a = .call inner b resume) : ∃ c u v, Walks inner b u c ∧
      Walks (resume c).1 (resume c).2 v d ∧ t = call.around a u ++ v := by
  cases h with
  | done h => cases h.symm.trans hnext
  | call h hinner hrest =>
    cases h.symm.trans hnext
    exact ⟨_, _, _, hinner, hrest, rfl⟩

theorem deterministic (h : Walks call a t b) (h' : Walks call a u c) : t = u ∧ b = c := by
  induction h generalizing u c with
  | done h =>
    obtain ⟨rfl, rfl⟩ := h'.of_done h
    exact ⟨rfl, rfl⟩
  | call h _ _ ihinner ihrest =>
    obtain ⟨_, _, _, hinner', hrest', rfl⟩ := h'.of_call h
    obtain ⟨rfl, rfl⟩ := ihinner hinner'
    obtain ⟨rfl, rfl⟩ := ihrest hrest'
    exact ⟨rfl, rfl⟩

theorem nothing (a : Assembly) : Walks .nothing a {} a := .done rfl

theorem within {inner : Call} {leave : Assembly → Assembly} (h : call.next a = .within inner b leave)
    (hinner : Walks inner b t c) : Walks call a (call.around a t ++ {}) (leave c) :=
  .call h hinner (.nothing _)

theorem single (hgoes : a.isInterrupted = false) (hrole : l.role = .single)
    (hline : (a.moveTo l.pos).invoked? l = none)
    (h : Walks (.lines rest) ((walkSingle none l).run (a.moveTo l.pos)).2 t b) :
    Walks (.lines (l :: rest)) a ({ visits := [(l, a.moveTo l.pos)] } ++ t) b :=
  .call (Call.next_single hgoes hrole) (.done (Call.next_line hline)) h

end Walks

/-! ## Walkers of blocks -/

/-- The lines or the passes of a call, carried out by a walker of lines. -/
def Call.walkBy (walk : LineWalker) : Call → Assembly → Assembly
  | .lines ls, a => ((walk ls).run a).2
  | .passes loop n carried, a =>
    ((iterate (loop.frame walk) loop.kind.rule (a.setup.options.maxLoopIterations.toInt.toNat - n)
      (Int64.ofNat (n + 1)) carried).run a).2
  | _, a => a

def Next.walkBy (walk : LineWalker) : Next → Assembly
  | .done b => b
  | .call inner b resume => (resume (inner.walkBy walk b)).2

section
variable (walk : LineWalker) (body : List SourceLine) (close : SourceLine) (a : Assembly)

theorem run_walkModule (name : Option String) :
    ((walkModule walk name body close).run a).2 = (nextModule name body close a).walkBy walk := by
  cases name with
  | none => rfl
  | some name =>
    have hget : (MonadState.get : Walk Assembly).run a = (a, a) := rfl
    unfold walkModule nextModule
    rw [Walk.run_bind, hget]
    dsimp only
    cases a.symbols.enterModule name <;> rfl

theorem run_nextChoice (header : Statement) :
    ((walkChoice walk header body).run a).2 = (nextChoice header body a).walkBy walk := by
  rw [run_walkChoice]
  unfold nextChoice
  rcases (pickLines header body).run a with ⟨_ | lines, b⟩ <;> rfl

theorem run_countedLoop (count : Expr) :
    ((countedLoop count (walk body) close).run a).2 = (nextLabelled (.loop count) body close a).walkBy walk := by
  unfold countedLoop nextLabelled
  rw [Walk.run_bind]
  dsimp only
  rcases StateT.run (evalInt count).run a with ⟨fault | n, b⟩
  · rfl
  dsimp only
  rw [Walk.run_bind]
  show (StateT.run (if n > b.setup.options.maxLoopIterations then _ else _ : Walk Unit) b).2 = _
  split <;> rfl

theorem run_forLoop (var : String) (first last : Expr) (step : Option Expr) :
    ((forLoop var first last step (walk body) close).run a).2 =
      (nextFor var first last step body close a).walkBy walk := by
  unfold forLoop nextFor
  rw [Walk.run_bind]
  show (StateT.run (if a.symbols.isVisible var then _ else _ : Walk Unit) a).2 = _
  split
  · rfl
  rw [Walk.run_bind]
  rcases StateT.run (evalBounds first last step).run a with ⟨fault | ⟨first, last, step⟩, b⟩ <;> rfl

theorem run_walkBlock (line : SourceLine) (s : Statement) :
    ((walkBlock walk line s body close).run a).2 = (nextBlock line s body close a).walkBy walk := by
  cases s with
  | moduleDef arg =>
    unfold walkBlock nextBlock
    dsimp only
    generalize line.label.or arg = name
    cases name with
    | none => exact run_walkModule walk body close (a.takeLabel line).2.flushLabel (a.takeLabel line).1
    | some name => exact run_walkModule walk body close a.flushLabel (some name)
  | ifTrue e | ifUsed s | ifUnused s => exact run_nextChoice walk body _ _
  | loop count => exact run_countedLoop walk body close _ count
  | forEach var first last step => exact run_forLoop walk body close _ var first last step
  | repeatBody =>
    show ((repeatLoop (walk body) close).run _).2 = (nextLabelled .repeatBody body close _).walkBy walk
    unfold repeatLoop nextLabelled
    dsimp only
    generalize close.stmt = stmt
    cases stmt with
    | none => rfl
    | some s =>
      cases s with
      | statement s => cases s <;> rfl
      | _ => rfl
  | _ => rfl

end

end SpectrumAsm
