/-
How many passes a loop has, and what leaves them.

A pass is left by a mark on its scope. `SameCourses` says that no such mark is set, and no scope opened or closed;
what is walked inside of a pass leaves the marks of the passes around it alone.
-/
import SpectrumAsm.Proofs.Walking

namespace SpectrumAsm

open List SymbolTable

variable {σ : Type} {loop : LoopCall σ} {walk : LineWalker} {left n : Nat} {carried v : σ} {a b c d : Assembly}

/-! ## Scopes of passes -/

/-- The open scopes, and of every scope all but its symbols. -/
def SymbolTable.courses (t : SymbolTable) :
    List Nat × Array (ScopeKind × Option Nat × Int64) × (Nat → Option LoopExit) :=
  (t.active, t.scopes.map Scope.frame, t.exit?)

theorem SymbolTable.courses_modifySymbols (t : SymbolTable) (slot : Slot) (f : NameTable Symbol → NameTable Symbol) :
    (t.modifySymbols slot f).courses = t.courses :=
  have hframes := t.sameFrames_modifySymbols slot f
  Prod.ext hframes.active (Prod.ext hframes.frames (funext (t.exit?_modifySymbols slot f)))

abbrev SameCourses : Assembly → Assembly → Prop := Unchanged (·.symbols.courses)

namespace SameCourses

variable (h : SameCourses a b)
include h

theorem exit? (id : Nat) : b.symbols.exit? id = a.symbols.exit? id := congrFun (congrArg (·.2.2) h) id

theorem frame (id : Nat) : b.symbols.scopes[id]?.map Scope.frame = a.symbols.scopes[id]?.map Scope.frame := by
  simpa [courses] using congrArg (·.2.1[id]?) h

theorem nextScope : b.symbols.nextScope = a.symbols.nextScope := by
  simpa [courses, SymbolTable.nextScope] using congrArg (·.2.1.size) h

theorem top? : b.symbols.top? = a.symbols.top? := congrArg (·.1.head?) h

theorem topExit : b.symbols.topScope?.bind (·.exit) = a.symbols.topScope?.bind (·.exit) := by
  rw [topScope?_exit, topScope?_exit, top? h, funext (exit? h)]

theorem counter : b.symbols.loopCounter? b.symbols.top? = a.symbols.loopCounter? a.symbols.top? := by
  rw [top? h]
  exact loopCounter?_eq fun j _ => frame h j

theorem isInScope (kind : ScopeKind) : b.isInScope kind = a.isInScope kind := by
  have hkind (id : Nat) := congrArg (Option.map (·.1)) (frame h id)
  simp only [Option.map_map] at hkind
  unfold Assembly.isInScope topScope?
  rw [top? h]
  cases a.symbols.top? with
  | none => rfl
  | some id => exact congrArg (· == some kind) (hkind id)

omit h

theorem naming : Naming SameCourses where
  note h _ := by
    obtain ⟨used, hu⟩ := h.symbols
    exact (congrArg courses hu).trans rfl
  define a name kind value := by
    unfold Assembly.define
    dsimp only
    split
    · rfl
    · exact a.symbols.courses_modifySymbols _ _

theorem settling : Settling SameCourses where
  asked h := by
    obtain ⟨_, _, rfl⟩ := h
    rfl
  reportAt _ _ _ := rfl
  assign a slot _ _ := a.symbols.courses_modifySymbols slot _
  setEntries _ _ _ := rfl
  patchBytes _ _ _ _ := rfl
  setPending _ _ := rfl

end SameCourses

theorem decide_courses (loop : LoopCall σ) (n : Nat) (carried : σ) (a : Assembly) :
    SameCourses (a.enterScope .pass (Int64.ofNat (n + 1))) (loop.decide n carried a).2 :=
  Naming.chain (SameCourses.naming.note (.moveTo _ loop.start) rfl) ((loop.kind.proceed_keeps SameCourses.naming.asked
    (fun _ _ _ a _ => a.symbols.courses_modifySymbols _ _) _ carried).reportingOr SameCourses.naming.report _)

theorem exit?_closeScope (a : Assembly) (id : Nat) : a.closeScope.symbols.exit? id = a.symbols.exit? id := by
  obtain ⟨keep, hclosed⟩ : ∃ keep, a.closeScope.symbols = a.symbols.closeScope keep := ⟨_, rfl⟩
  obtain ⟨_, heq, rfl | ⟨_, -, rfl⟩⟩ := a.symbols.closeScope_eq keep <;> rw [hclosed, heq]
  · rfl
  · exact bind_modify_of_eq (f := fun s : Scope => { s with symbols := {} }) (fun _ => rfl) id

theorem exit?_enterScope {id : Nat} (hid : id < a.symbols.nextScope) (kind : ScopeKind) (pass : Int64) :
    (a.enterScope kind pass).symbols.exit? id = a.symbols.exit? id := by
  rw [exit?, scopes_enterScope a kind pass hid, exit?]

/-- A nested walk leaves no pass but the innermost one. -/
theorem Nested.exits {ids : List Nat} (h : Nested a ids b) {id : Nat} (hid : id < a.symbols.nextScope)
    (htop : a.symbols.top? ≠ some id) : b.symbols.exit? id = a.symbols.exit? id := by
  induction h with
  | even h => exact h.exits id htop
  | @scope a b ids kind pass h ih =>
    have hne : (a.enterScope kind pass).symbols.top? ≠ some id := fun he => Nat.ne_of_gt hid (Option.some.inj he)
    rw [exit?_closeScope, ih (by rw [nextScope_enterScope]; omega) hne, exit?_enterScope hid]
  | @module a b ids name t he h ih =>
    have hsame : t.exit? id = a.symbols.exit? id := by rw [exit?, scopes_enterModule he, exit?]
    obtain ⟨_, hleft⟩ := b.symbols.leaveModule_eq
    rw [hleft, ← hsame]
    refine ih ?_ ?_
    · exact (nextScope_enterModule he).symm ▸ hid
    · rwa [top?, active_enterModule he]
  | deeper _ ih => exact ih hid htop
  | trans h _ ih ih' =>
    refine (ih' (Nat.lt_of_lt_of_le hid h.level.scopes) ?_).trans (ih hid htop)
    rwa [top?, h.level.active]

/-- How many passes a loop asks for, if it counts them. -/
def LoopKind.count? {τ : Type} : LoopKind τ → Option Int64
  | .counted count => some count
  | _ => none

/-- The lines of a pass end with the wish to end the loop. -/
def Pass.IsLeft (loop : LoopCall σ) (walk : LineWalker) (p : Pass σ) : Prop :=
  ((walk loop.body).run p.start).2.symbols.topScope?.bind (·.exit) = some .endLoop

theorem LoopKind.finished_counted {kind : LoopKind σ} (h : kind.count?.isSome = true) (a : Assembly) :
    ((reportingOr true kind.rule.finished).run a).1 = false := by
  cases kind with
  | counted => rfl
  | _ => cases h

/-- Behind its lines a pass does nothing to passes. If they end with the wish to end the loop, it is over; otherwise
a loop that counts its passes goes on. -/
theorem pass_closes (loop : LoopCall σ) (walk : LineWalker) (b : Assembly) :
    ∃ c, SameCourses ((walk loop.body).run b).2 c ∧ (loop.pass walk b).2 = c.closeScope ∧
      let exit := ((walk loop.body).run b).2.symbols.topScope?.bind (·.exit)
      (exit = some .endLoop → (loop.pass walk b).1 = true) ∧
      (exit ≠ some .endLoop → loop.kind.count?.isSome = true → (loop.pass walk b).1 = false) := by
  have h := SameCourses.naming.bindEndLabel ((walk loop.body).run b).2 loop.close.label loop.close.pos
  obtain ⟨c, hc, hpass⟩ : ∃ c, SameCourses ((walk loop.body).run b).2 c ∧
      loop.pass walk b = (closePass loop.close loop.kind.rule.finished).run c := by
    unfold LoopCall.pass
    cases b.symbols.top? with
    | none => exact ⟨_, h, rfl⟩
    | some id => exact ⟨_, Naming.chain h (SameCourses.settling.resolveScope _ id), rfl⟩
  rw [hpass, run_closePass, hc.topExit]
  split
  · next hleft => exact ⟨c, hc, rfl, fun _ => rfl, fun h => absurd (beq_iff_eq.1 hleft) h⟩
  · next hleft =>
    have hended : Walk.Keeps SameCourses (reportingOr true loop.kind.rule.finished) :=
      (loop.kind.finished_keeps SameCourses.naming.asked).reportingOr SameCourses.naming.report
    exact ⟨_, Naming.chain hc (hended (c.moveTo loop.close.pos)), rfl, fun h => absurd (beq_iff_eq.2 h) hleft,
      fun _ hcount => loop.kind.finished_counted hcount _⟩

theorem pass_exits (loop : LoopCall σ) (hwalk : (walk loop.body).Keeps Follows) {pass : Int64}
    (h : SameCourses (a.enterScope .pass pass) b) (id : Nat) (hid : id < a.symbols.nextScope) :
    (loop.pass walk b).2.symbols.exit? id = a.symbols.exit? id ∧ id < (loop.pass walk b).2.symbols.nextScope := by
  obtain ⟨c, hc, hpass, -⟩ := pass_closes loop walk b
  obtain ⟨_, hnested⟩ := (hwalk b).nested
  have htop : b.symbols.top? ≠ some id := by
    rw [h.top?]
    exact fun he => Nat.ne_of_gt hid (Option.some.inj he)
  have hnext : id < b.symbols.nextScope := by
    rw [h.nextScope, nextScope_enterScope]
    omega
  rw [hpass, exit?_closeScope, hc.exit?, hnested.exits hnext htop, h.exit?, exit?_enterScope hid]
  refine ⟨rfl, Nat.lt_of_lt_of_le hnext (Nat.le_trans hnested.level.scopes (Nat.le_of_eq ?_))⟩
  rw [← hc.nextScope]
  exact (c.symbols.nextScope_closeScope _).symm

/-- Where the lines of a pass begin, it has its number and is not left. -/
theorem pass_begins {pass : Int64} (h : SameCourses (a.enterScope .pass pass) b) :
    (b.symbols.env b.place).counter = some pass ∧ b.isInterrupted = false := by
  have htop : (a.enterScope .pass pass).symbols.top? = some a.symbols.nextScope := rfl
  constructor
  · refine h.counter.trans ?_
    rw [htop]
    simp [loopCounter?, chain, outward, scopes_entered]
  · refine (congrArg Option.isSome h.topExit).trans ?_
    simp [topScope?, htop, scopes_entered]

/-! ## All passes -/

/-- What holds of the passes of a loop of which `n` are over and `left` are still allowed. -/
structure LoopCourse (loop : LoopCall σ) (walk : LineWalker) (left n : Nat) (a : Assembly) (ps : List (Pass σ))
    (e : LoopEnd) (b : Assembly) : Prop where
  /-- they are numbered, and none of them begins as one that is left -/
  numbered : ∀ k p, ps[k]? = some p → (p.start.symbols.env p.start.place).counter = some (Int64.ofNat (n + k + 1)) ∧
    p.start.isInterrupted = false
  bounded : ps.length ≤ left
  overflow : e = .overflow → ps.length = left
  /-- the loop ends behind the first of them with too many faults, or whose lines wish so -/
  goes : ∀ p ∈ ps.dropLast, loop.isOver p.stop = false ∧ ¬p.IsLeft loop walk
  faulty : e = .faulty ↔ ∃ p ∈ ps.getLast?, loop.isOver p.stop = true
  leaves : ∀ p ∈ ps.getLast?, p.IsLeft loop walk → e = .finished ∨ e = .faulty
  counted : ∀ count, loop.kind.count? = some count → n ≤ count.toInt → count.toInt ≤ left + n →
    left + n ≤ 0x7FFFFFFFFFFFFFFF →
    n + ps.length = count.toInt ∨ e = .faulty ∨ e = .finished ∧ ∃ p ∈ ps.getLast?, p.IsLeft loop walk
  /-- passes around the loop are not left by it -/
  exits : ∀ id < a.symbols.nextScope, b.symbols.exit? id = a.symbols.exit? id

theorem decide_counted {count : Int64} (h : loop.kind.count? = some count) (hn : n < 0x7FFFFFFFFFFFFFFF) (carried : σ)
    (a : Assembly) : (loop.decide n carried a).1.isSome = true ↔ n < count.toInt := by
  have hpass : (Int64.ofNat (n + 1)).toInt = n + 1 := Int64.toInt_ofNat_of_lt (by omega)
  obtain ⟨kind, body, close, start, faults⟩ := loop
  cases kind with
  | counted count =>
    cases h
    show Option.isSome (if Int64.ofNat (n + 1) ≤ count then some () else none) = true ↔ _
    simp only [Int64.le_iff_toInt_le, hpass]
    split <;> simp <;> omega
  | _ => cases h

/-- By induction on the passes: there is none, or a last one, or one with others behind it. -/
theorem Iterates.course (hwalk : (walk loop.body).Keeps Follows) {ps : List (Pass σ)} {e : LoopEnd}
    (h : Iterates loop walk left n carried a ps e b) : LoopCourse loop walk left n a ps e b := by
  have hbegins {n : Nat} {carried : σ} {a b : Assembly} {x : Option σ} (hd : loop.decide n carried a = (x, b)) :
      SameCourses (a.enterScope .pass (Int64.ofNat (n + 1))) b := by
    have hsame := decide_courses loop n carried a
    rwa [hd] at hsame
  have hclosed {n : Nat} {carried : σ} {a b : Assembly} {x : Option σ} (hd : loop.decide n carried a = (x, b))
      (id : Nat) (hid : id < a.symbols.nextScope) : b.closeScope.symbols.exit? id = a.symbols.exit? id := by
    rw [exit?_closeScope, (hbegins hd).exit?, exit?_enterScope hid]
  -- a single pass, behind which the loop ends
  have hsingle {left n : Nat} {carried v : σ} {a b c d : Assembly} {done : Bool} {e : LoopEnd}
      (hd : loop.decide n carried a = (some v, b)) (hp : loop.pass walk b = (done, c))
      (he : e = .finished ∧ done = true ∧ loop.isOver c = false ∨ e = .faulty ∧ loop.isOver c = true)
      (hexits : ∀ id, d.symbols.exit? id = c.symbols.exit? id) :
      LoopCourse loop walk (left + 1) n a [⟨v, b, c⟩] e d := by
    obtain ⟨_, -, -, -, hgoes⟩ := pass_closes loop walk b
    have hexit := pass_exits loop hwalk (hbegins hd)
    rw [hp] at hexit hgoes
    refine ⟨fun k p hk => ?_, by simp, ?_, by simp, ?_, fun _ _ _ => he.imp And.left And.left,
      fun count hcount _ _ _ => .inr ?_, fun id hid => (hexits id).trans (hexit id hid).1⟩
    · cases k <;> cases hk
      exact pass_begins (hbegins hd)
    · rintro rfl
      simp at he
    · rcases he with ⟨rfl, -, hover⟩ | ⟨rfl, hover⟩ <;> simp [hover]
    · rcases he with ⟨rfl, rfl, -⟩ | ⟨rfl, -⟩
      · refine .inr ⟨rfl, _, rfl, ?_⟩
        by_contra hleft
        cases hgoes hleft (by rw [hcount]; rfl)
      · exact .inl rfl
  induction h with
  | @declined left n carried a b hd =>
    refine ⟨by simp, Nat.zero_le _, (fun h => by cases h), by simp, by simp, by simp,
      fun count hcount hlow hhigh hlong => .inl ?_, hclosed hd⟩
    rcases Nat.eq_zero_or_pos left with rfl | hpos
    · simp
      omega
    · have hstops := (decide_counted (n := n) hcount (by omega) carried a).not
      rw [hd] at hstops
      simp at hstops ⊢
      omega
  | @overflow n carried v a b hd =>
    refine ⟨by simp, Nat.zero_le _, fun _ => rfl, by simp, by simp, by simp, fun count _ hlow hhigh _ => .inl ?_,
      hclosed hd⟩
    simp
    omega
  | faulty hd hp hover => exact hsingle hd hp (.inr ⟨rfl, hover⟩) fun _ => rfl
  | finished hd hp hover => exact hsingle hd hp (.inl ⟨rfl, rfl, hover⟩) fun _ => rfl
  | @next left n carried v a b c d ps e hd hp hover h ih =>
    obtain ⟨_, -, -, hleaves, -⟩ := pass_closes loop walk b
    have hexit := pass_exits loop hwalk (hbegins hd)
    rw [hp] at hexit hleaves
    have hgoes : ¬Pass.IsLeft loop walk ⟨v, b, c⟩ := fun hleft => Bool.false_ne_true (hleaves hleft)
    refine ⟨fun k p hk => ?_, Nat.succ_le_succ ih.bounded, fun he => congrArg (· + 1) (ih.overflow he),
      ?_, ?_, ?_, fun count hcount hlow hhigh hlong => ?_,
      fun id hid => (ih.exits id (hexit id hid).2).trans (hexit id hid).1⟩
    · cases k with
      | zero =>
        cases hk
        exact pass_begins (hbegins hd)
      | succ k =>
        rw [show n + (k + 1) = n + 1 + k by omega]
        exact ih.numbered k p hk
    · cases ps with
      | nil => simp
      | cons => simpa [hover, hgoes] using ih.goes
    · cases ps <;> simpa [hover] using ih.faulty
    · cases ps with
      | nil => simp [hgoes]
      | cons => simpa using ih.leaves
    · have hgoes := decide_counted (n := n) hcount (by omega) carried a
      rw [hd] at hgoes
      rcases ih.counted count hcount (by simp at hgoes; omega) (by omega) (by omega) with
        hall | he | ⟨he, p, hlast, hleft⟩
      · refine .inl ?_
        simp
        omega
      · exact .inr (.inl he)
      · exact .inr (.inr ⟨he, p, by simp [getLast?_cons, Option.mem_def.1 hlast], hleft⟩)

/-! ## Leaving a pass -/

/-- What a statement does to the pass it stands in. -/
def Statement.exit? : Statement → Option LoopExit
  | .breakLoop => some .endLoop
  | .continueLoop => some .nextPass
  | _ => none

theorem SymbolTable.topScope?_modifyTop (t : SymbolTable) (f : Scope → Scope) :
    (t.modifyTop f).topScope? = t.topScope?.map f := by
  have htop : (t.modifyTop f).top? = t.top? := by
    unfold modifyTop
    split <;> rfl
  unfold topScope?
  rw [htop]
  cases h : t.top? with
  | none => rfl
  | some id => simp [modifyTop, h, modifyScope, Array.getElem?_modify]

theorem run_leavePass (h : a.isInScope .pass = true) (exit : LoopExit) (fault : Fault) :
    ((reporting (leavePass exit fault)).run a).2.symbols.topScope?.bind (·.exit) = some exit := by
  have hrun : (leavePass exit fault).run.run a =
      (.ok (), { a with symbols := a.symbols.modifyTop fun s => { s with exit := some exit } }) := by
    unfold leavePass
    rw [Step.run_bind_ok (Step.run_get a), h]
    rfl
  obtain ⟨s, hs⟩ : ∃ s, a.symbols.topScope? = some s := by
    cases hs : a.symbols.topScope? with
    | none => simp [Assembly.isInScope, hs] at h
    | some s => exact ⟨s, rfl⟩
  rw [run_reporting, hrun]
  simp [topScope?_modifyTop, hs]

theorem walkLines_exit {line : SourceLine} {s : Statement} {exit : LoopExit} (hs : line.stmt = some (.statement s))
    (he : s.exit? = some exit) (hpass : a.isInScope .pass = true) (hgoes : a.isInterrupted = false)
    (expand : Option LineWalker) (n : Nat) : ∃ b, b.symbols.topScope?.bind (·.exit) = some exit ∧
      ∀ rest, (walkLines expand (n + 1) (line :: rest)).run a = ((), b) := by
  have hsame : SameCourses a (({ a.moveTo line.pos with opened := none } : Assembly).bindLineLabel line) :=
    SameCourses.naming.bindLineLabel { a.moveTo line.pos with opened := none } line
  obtain ⟨fault, hrun, hrole⟩ : ∃ fault, ((walkSingle expand line).run (a.moveTo line.pos)).2 =
      ((reporting (leavePass exit fault)).run
        (({ a.moveTo line.pos with opened := none } : Assembly).bindLineLabel line)).2 ∧ line.role = .single := by
    unfold walkSingle SourceLine.role
    rw [hs]
    cases s <;> cases he <;> exact ⟨_, rfl, rfl⟩
  have hexit := run_leavePass ((hsame.isInScope .pass).trans hpass) exit fault
  refine ⟨_, hexit, fun rest => ?_⟩
  rw [walkLines_single hgoes hrole, hrun, walkLines_interrupted]
  exact congrArg Option.isSome hexit

/-- The passes of a loop, whatever kind it is of. They are numbered from one on; there are at most as many as the
settings allow; a loop that counts its passes has as many as it asks for, unless it is left or has too many faults. A
line that leaves a pass skips all that follows in it, and neither the next pass nor the passes around the loop are
left with it. -/
theorem loop_passes (outer : Option Nat) (size : Nat) (kind : LoopKind σ) (first : σ) (body : List SourceLine)
    (close : SourceLine) (a : Assembly) :
    let walk := walkLines (outer.map walkDepth) (size + 1)
    let loop : LoopCall σ := ⟨kind, body, close, a.pos, a.diagnostics.size⟩
    let max := a.setup.options.maxLoopIterations.toInt.toNat
    let b := ((runLoop (walk body) close kind.rule first).run a).2
    (∃ ps e, Iterates loop walk max 0 first a ps e b ∧ LoopCourse loop walk max 0 a ps e b) ∧
    (∀ c lines, c.isInterrupted = true → (walk lines).run c = ((), c)) ∧
    ∀ c line s exit, line.stmt = some (.statement s) → s.exit? = some exit → c.isInScope .pass = true →
      c.isInterrupted = false → ∃ d, d.symbols.topScope?.bind (·.exit) = some exit ∧
        ∀ rest, (walk (line :: rest)).run c = ((), d) := by
  intro walk loop max b
  refine ⟨?_, fun c lines h => walkLines_interrupted h _,
    fun c line s exit hs he hpass hgoes => walkLines_exit hs he hpass hgoes _ size⟩
  obtain ⟨ps, e, h⟩ := iterates loop walk max 0 first a
  exact ⟨ps, e, h, h.course (walkLines_depth_follows outer (size + 1) body)⟩

end SpectrumAsm
