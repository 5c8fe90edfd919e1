/-
The passes of a loop.

`Iterates` lists the passes that are walked, each with the state its lines begin in and the state behind it,
and says how the loop ends.
-/
import SpectrumAsm.Assembly.Walk
import SpectrumAsm.Proofs.Histories

namespace SpectrumAsm

open List SymbolTable

variable {σ : Type}

/-- The loops there are, by what they hand from pass to pass. -/
inductive LoopKind : Type → Type where
  | counted (count : Int64) : LoopKind Unit
  | whileTrue (condition : Expr) : LoopKind Unit
  | untilTrue (condition : Expr) : LoopKind Unit
  /-- a variable, `key` of scope `id`, that goes up to a last value -/
  | counting (id : Nat) (key : String) (last step : Value) : LoopKind Value

def LoopKind.rule : LoopKind σ → LoopRule σ
  | .counted count => { proceed := fun pass _ => return if pass ≤ count then some () else none }
  | .whileTrue e => { proceed := fun _ _ => return if ← evalTruth e then some () else none }
  | .untilTrue e => { proceed := fun _ _ => return some (), finished := evalTruth e }
  | .counting id key last step => countingRule id key last step

/-- A loop as its passes see it. -/
structure LoopCall (σ : Type) where
  kind : LoopKind σ
  body : List SourceLine
  close : SourceLine
  start : Position
  faults : Nat

/-- A pass: what it goes on with, the state its lines begin in, and the state behind it. -/
structure Pass (σ : Type) where
  carried : σ
  start : Assembly
  stop : Assembly

/-- How a loop ends: no further pass is asked for; one more is asked for than the settings allow; a pass ends
the loop; or the faults since the loop began are too many. -/
inductive LoopEnd where
  | declined | overflow | finished | faulty

namespace LoopCall

/-- What stays the same during the loop, its lines being walked by `walk`. -/
def frame (loop : LoopCall σ) (walk : LineWalker) : LoopFrame :=
  ⟨walk loop.body, loop.close, loop.start, loop.faults⟩

/-- The next pass is opened, and it is decided whether there is to be one. -/
def decide (loop : LoopCall σ) (n : Nat) (carried : σ) (a : Assembly) : Option σ × Assembly :=
  let pass := Int64.ofNat (n + 1)
  (reportingOr none (loop.kind.rule.proceed pass carried)).run
    ((a.enterScope .pass pass).moveTo loop.start)

/-- The lines of a pass are walked, and it is closed. The answer says whether the loop is over. -/
def pass (loop : LoopCall σ) (walk : LineWalker) (a : Assembly) : Bool × Assembly :=
  (endPass loop.close loop.kind.rule.finished a.symbols.top?).run ((walk loop.body).run a).2

def isOver (loop : LoopCall σ) (a : Assembly) : Bool := (loop.frame fun _ => return ()).isOverLimit a

end LoopCall

/-- A loop of which `n` passes are over and `left` are still allowed. -/
inductive Iterates (loop : LoopCall σ) (walk : LineWalker) :
    Nat → Nat → σ → Assembly → List (Pass σ) → LoopEnd → Assembly → Prop where
  | declined {left n : Nat} {carried : σ} {a b : Assembly} (hd : loop.decide n carried a = (none, b)) :
    Iterates loop walk left n carried a [] .declined b.closeScope
  | overflow {n : Nat} {carried v : σ} {a b : Assembly} (hd : loop.decide n carried a = (some v, b)) :
    Iterates loop walk 0 n carried a [] .overflow (b.closeScope.report .loopOverflow)
  | faulty {left n : Nat} {carried v : σ} {a b c : Assembly} {done : Bool}
    (hd : loop.decide n carried a = (some v, b)) (hp : loop.pass walk b = (done, c)) (hover : loop.isOver c = true) :
    Iterates loop walk (left + 1) n carried a [⟨v, b, c⟩] .faulty
      (({ c with pos := loop.start } : Assembly).report .tooManyLoopErrors)
  | finished {left n : Nat} {carried v : σ} {a b c : Assembly} (hd : loop.decide n carried a = (some v, b))
    (hp : loop.pass walk b = (true, c)) (hover : loop.isOver c = false) :
    Iterates loop walk (left + 1) n carried a [⟨v, b, c⟩] .finished c
  | next {left n : Nat} {carried v : σ} {a b c d : Assembly} {ps : List (Pass σ)} {e : LoopEnd}
    (hd : loop.decide n carried a = (some v, b)) (hp : loop.pass walk b = (false, c)) (hover : loop.isOver c = false)
    (h : Iterates loop walk left (n + 1) v c ps e d) :
    Iterates loop walk (left + 1) n carried a (⟨v, b, c⟩ :: ps) e d

theorem pass_succ (n : Nat) : Int64.ofNat (n + 1) + 1 = Int64.ofNat (n + 1 + 1) := by
  rw [Int64.ofNat_add (n + 1) 1]
  rfl

theorem run_closePass (close : SourceLine) (finished : Step Bool) (a : Assembly) : (closePass close finished).run a =
      if a.symbols.topScope?.bind (·.exit) == some .endLoop then (true, a.closeScope)
      else ((reportingOr true finished).run (a.moveTo close.pos)).map id Assembly.closeScope := by
  unfold closePass
  rw [Walk.run_bind]
  show StateT.run (if a.symbols.topScope?.bind (·.exit) == some .endLoop then _ else _ : Walk Bool) a = _
  split <;> rfl

/-- One round of a loop. -/
theorem run_iterate (loop : LoopCall σ) (walk : LineWalker) (left n : Nat) (carried : σ) (a : Assembly) :
    ((iterate (loop.frame walk) loop.kind.rule left (Int64.ofNat (n + 1)) carried).run a).2 =
      match loop.decide n carried a, left with
      | (none, b), _ => b.closeScope
      | (some _, b), 0 => b.closeScope.report .loopOverflow
      | (some v, b), left + 1 =>
        let c := (loop.pass walk b).2
        if loop.isOver c then ({ c with pos := loop.start } : Assembly).report .tooManyLoopErrors
        else if (loop.pass walk b).1 then c
        else ((iterate (loop.frame walk) loop.kind.rule left (Int64.ofNat (n + 1 + 1)) v).run c).2 := by
  rcases hd : loop.decide n carried a with ⟨_ | v, b⟩ <;>
    change (reportingOr none _).run (((loop.frame walk).beginPass _).run a).2 = _ at hd <;> cases left <;>
    rw [iterate, Walk.run_bind, Walk.run_bind, hd]
  · rfl
  · rfl
  · rfl
  · rw [pass_succ]
    show (StateT.run (if loop.isOver (loop.pass walk b).2 then _ else if (loop.pass walk b).1 then _ else _ : Walk Unit)
      (loop.pass walk b).2).2 = if loop.isOver (loop.pass walk b).2 then _ else if (loop.pass walk b).1 then _ else _
    cases loop.isOver (loop.pass walk b).2 <;> cases (loop.pass walk b).1 <;> rfl

theorem iterates (loop : LoopCall σ) (walk : LineWalker) (left n : Nat) (carried : σ) (a : Assembly) :
    ∃ ps e, Iterates loop walk left n carried a ps e
      ((iterate (loop.frame walk) loop.kind.rule left (Int64.ofNat (n + 1)) carried).run a).2 := by
  induction left generalizing n carried a with
  | zero =>
    rw [run_iterate]
    rcases hd : loop.decide n carried a with ⟨_ | v, b⟩
    · exact ⟨_, _, .declined hd⟩
    · exact ⟨_, _, .overflow hd⟩
  | succ left ih =>
    rw [run_iterate]
    rcases hd : loop.decide n carried a with ⟨_ | v, b⟩
    · exact ⟨_, _, .declined hd⟩
    · dsimp only
      split
      · next hover => exact ⟨_, _, .faulty hd rfl hover⟩
      next hover =>
      rw [Bool.not_eq_true] at hover
      split
      · next hdone => exact ⟨_, _, .finished hd (Prod.ext hdone rfl) hover⟩
      · next hdone =>
        obtain ⟨ps, e, h⟩ := ih (n + 1) v (loop.pass walk b).2
        exact ⟨_, _, .next hd (Prod.ext (Bool.not_eq_true _ ▸ hdone) rfl) hover h⟩

end SpectrumAsm
