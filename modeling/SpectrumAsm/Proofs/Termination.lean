/-
Every walk comes to an end.

A macro may expand itself, and a loop may have no reason to stop. That each call comes to an end in every
state of a run is due to three things that get smaller, the outermost first: the expansions the settings still
allow, the lines still to be walked, and the passes the settings still allow to a loop.
-/
import SpectrumAsm.Proofs.Walking

namespace SpectrumAsm

open List Step

variable {a b : Assembly} {call inner : Call} {body lines : List SourceLine} {σ : Type}
  {close : SourceLine} {t : Tally} {d : MacroDef} {args : List Operand} {n : Nat}

/-! ## The settings, the run and the nesting -/

theorem Moves.setup (h : Moves a b) : b.setup = a.setup := by
  induction h with
  | refl => rfl
  | tail _ hm ih => exact hm.kept.2.trans ih

/-- Moves, as far as the state they begin in can come about. -/
def Proceeds (a b : Assembly) : Prop := Reachable a → Moves a b

namespace Proceeds

instance : IsPreorder Assembly Proceeds where
  refl _ _ := .refl
  trans _ _ _ h h' ha := (h ha).trans (h' (ha.moves (h ha)))

theorem move (h : Move a b) : Proceeds a b := fun _ => .single h

theorem calm (h : Calm a b) : Proceeds a b := fun _ => h.moves

theorem reachable (h : Proceeds a b) (ha : Reachable a) : Reachable b := ha.moves (h ha)

theorem housekeeping : Housekeeping Proceeds where
  note h _ := move (.note h)
  closeInstance a := move (.closeInstance a)
  define a name kind value := calm (define_calm a name kind value)
  addMacro a d := move (.symbols (.addMacro a.symbols d))
  addStruct _ _ hfits := move (.symbols (.addStruct hfits))
  enterScope a kind pass _ := (History.single (.opens a kind pass)).moves
  resolveScope a id _ := by
    obtain ⟨log, h, -⟩ := sweeps_resolution (some id) a.pending.size a
    exact h.moves
  closeScope a := move (.closeScope a)
  enterModule h := move (.symbols (.enterModule h))
  leaveModule a := move (.symbols (.leaveModule _))
  openLoop a key v := calm (openLoop_calm a key v)
  assign a id key v := move (.symbols (.count a.symbols id key v))

end Proceeds

theorem Call.next_proceeds (call : Call) (a : Assembly) : (call.next a).Keeps Proceeds a :=
  Proceeds.housekeeping.next (.inr fun _ _ => Proceeds.move (.note (by apply Noted.ofSame <;> rfl)))
    fun line _ => (walkSingle_none_follows line a).moves

theorem Walks.proceeds (h : Walks call a t b) : Proceeds a b := (h.keeps Call.next_proceeds).1

def SameDepth (a b : Assembly) : Prop := b.macroDepth = a.macroDepth

namespace SameDepth

instance : IsPreorder Assembly SameDepth where
  refl _ := rfl
  trans _ _ _ h h' := Eq.trans h' h

theorem housekeeping : Housekeeping SameDepth where
  note _ hd := hd
  closeInstance _ := rfl
  define a name kind value := (define_calm a name kind value).tame.depth
  addMacro _ _ := rfl
  addStruct _ _ _ := rfl
  enterScope _ _ _ := rfl
  resolveScope a id := (Even.settling.resolveScope a id).depth
  closeScope _ := rfl
  enterModule _ := rfl
  leaveModule _ := rfl
  openLoop _ _ _ := rfl
  assign _ _ _ _ := rfl

end SameDepth

variable {resume : Assembly → Call × Assembly}

theorem Call.depth_of_call (h : call.next a = .call inner b resume) :
    (∀ t, (call.around a t).nesting + a.macroDepth = t.nesting + b.macroDepth) ∧
      b.macroDepth ≤ max a.macroDepth a.setup.options.maxMacroDepth := by
  cases hexpands : call.expands with
  | true =>
    obtain ⟨d, args, pos, rfl⟩ := call.expands_eq_true hexpands
    change nextExpansion d args pos a = _ at h
    unfold nextExpansion at h
    dsimp only at h
    split at h
    · cases h
    split at h
    · cases h
    next hlimit =>
    cases h
    have hdeeper : a.openExpansion.macroDepth = a.macroDepth + 1 := rfl
    refine ⟨fun t => ?_, by omega⟩
    show t.nesting + 1 + a.macroDepth = _
    omega
  | false =>
    have hnext := SameDepth.housekeeping.next (.inl hexpands) fun line _ =>
      (walkSingle_none_follows line a).level.depth
    rw [h] at hnext
    have hb : b.macroDepth = a.macroDepth := hnext.1
    refine ⟨fun t => ?_, by omega⟩
    rw [hb]
    cases call with
    | expand d args pos => cases hexpands
    | _ => rfl

/-! ## Bounds -/

theorem LoopCall.next_call {loop : LoopCall σ} {carried : σ}
    (h : loop.next n carried a = .call inner b resume) : n < b.setup.options.maxLoopIterations.toInt.toNat := by
  unfold LoopCall.next at h
  split at h
  · cases h
  split at h
  · cases h
  · next hn =>
    cases h
    exact Nat.lt_of_not_le hn

theorem Call.setup_of_call {c : Assembly} (h : call.next a = .call inner b resume) (hinner : Walks inner b t c)
    (ha : Reachable a) : Reachable b ∧ b.setup = a.setup ∧ Reachable (resume c).2 ∧ (resume c).2.setup = a.setup := by
  have hnext := call.next_proceeds a
  rw [h] at hnext
  have hb := hnext.1.reachable ha
  have hc := hinner.proceeds.reachable hb
  have hsetup : b.setup = a.setup := (hnext.1 ha).setup
  refine ⟨hb, hsetup, (hnext.2 c).reachable hc, ?_⟩
  rw [(hnext.2 c hc).setup, (hinner.proceeds hb).setup, hsetup]

/-- Neither macros nor passes go beyond the limits of the settings. -/
theorem Walks.bounded (h : Walks call a t b) (hvar : a.HasVariable call.counted?) (ha : Reachable a) :
    t.nesting + a.macroDepth ≤ max a.macroDepth a.setup.options.maxMacroDepth ∧
      t.passes ≤ a.setup.options.maxLoopIterations.toInt.toNat := by
  induction h with
  | @done call a b h =>
    have hnone : (call.own a).nesting = 0 ∧ (call.own a).passes = 0 := by cases call <;> exact ⟨rfl, rfl⟩
    omega
  | @call call inner a b c d resume t u h hinner _ ihinner ihrest =>
    obtain ⟨hvar', _, _, hback⟩ := Call.next_follows h hvar
    obtain ⟨-, hfollows, hvar''⟩ := hback c (hinner.follows hvar')
    obtain ⟨hb, hsetup, hresume, hsetup'⟩ := Call.setup_of_call h hinner ha
    obtain ⟨haround, hdepth⟩ := Call.depth_of_call h
    have hin := ihinner hvar' hb
    have hrest := ihrest hvar'' hresume
    rw [hsetup] at hin
    rw [hsetup', hfollows.level.depth] at hrest
    have haround := haround t
    have hpasses : (call.around a t).passes ≤ a.setup.options.maxLoopIterations.toInt.toNat := by
      cases call with
      | passes loop n carried =>
        have hn := LoopCall.next_call h
        rw [hsetup] at hn
        show max t.passes (n + 1) ≤ _
        omega
      | _ => exact hin.2
    simp only [Tally.nesting_append, Tally.passes_append]
    omega

/-! ## Existence -/

/-- A state of a run in which the settings allow at most `depth` more expansions inside one another. -/
structure Assembly.Allows (a : Assembly) (depth : Nat) : Prop where
  reachable : Reachable a
  limit : a.setup.options.maxMacroDepth ≤ a.macroDepth + depth

/-- The walks of at most `m` lines that a program carries out. -/
def LineWalker.Ends (walk : LineWalker) (m depth : Nat) : Prop :=
  ∀ (lines : List SourceLine) (a : Assembly), lines.length ≤ m → a.Allows depth →
    ∃ t, Walks (.lines lines) a t ((walk lines).run a).2

theorem length_splitBlock {block : Block} {inner : List Block} {rest : List SourceLine}
    (h : splitBlock block inner lines = some (body, close, rest)) : body.length + rest.length < lines.length := by
  induction lines generalizing inner body with
  | nil => cases h
  | cons line lines ih =>
    have hfurther {inner : List Block}
        (h : (splitBlock block inner lines).map (fun x => (line :: x.1, x.2)) = some (body, close, rest)) :
          body.length + rest.length < (line :: lines).length := by
      obtain ⟨⟨body', close', rest'⟩, hsplit, heq⟩ := Option.map_eq_some_iff.1 h
      cases heq
      have := ih hsplit
      simp only [length_cons]
      omega
    unfold splitBlock at h
    split at h
    · exact hfurther h
    split at h
    · exact hfurther h
    split at h
    · exact hfurther h
    split at h
    · cases h
      simp
    · exact hfurther h

theorem length_cutSections (depth : Nat) (lines : List SourceLine) : (cutSections depth lines).1.length ≤ lines.length ∧
      ∀ s ∈ (cutSections depth lines).2, s.body.length ≤ lines.length := by
  induction lines generalizing depth with
  | nil => exact ⟨Nat.le_refl _, by simp [cutSections]⟩
  | cons line lines ih =>
    have hplain (depth : Nat) : (line :: (cutSections depth lines).1).length ≤ (line :: lines).length ∧
        ∀ s ∈ (cutSections depth lines).2, s.body.length ≤ (line :: lines).length := by
      refine ⟨Nat.succ_le_succ (ih depth).1, fun s hs => Nat.le_succ_of_le ((ih depth).2 s hs)⟩
    unfold cutSections
    split
    · exact hplain _
    split
    · exact hplain _
    split
    · refine ⟨Nat.zero_le _, fun s hs => ?_⟩
      rcases mem_cons.1 hs with rfl | hs
      · exact Nat.le_succ_of_le (ih 0).1
      · exact Nat.le_succ_of_le ((ih 0).2 s hs)
    · exact hplain _

section
variable {walk : LineWalker} {m depth : Nat}

theorem Assembly.Allows.proceeds (ha : a.Allows depth) (h : Proceeds a b) (hd : b.macroDepth = a.macroDepth) :
    b.Allows depth := by
  refine ⟨h.reachable ha.reachable, ?_⟩
  rw [(h ha.reachable).setup, hd]
  exact ha.limit

theorem Call.allows_of_call (hcall : call.expands = false) (h : call.next a = .call inner b resume)
    (ha : a.Allows depth) : b.Allows depth := by
  have hnext := call.next_proceeds a
  have hsame := SameDepth.housekeeping.next (.inl hcall) fun line _ => (walkSingle_none_follows line a).level.depth
  rw [h] at hnext hsame
  exact ha.proceeds hnext.1 hsame.1

/-! ### Loops -/

/-- The passes of a loop, the first of which is in state `a`. -/
theorem LineWalker.Ends.passes (hw : walk.Ends m depth) {loop : LoopCall σ} (hm : loop.body.length ≤ m) {left : Nat}
    {carried : σ} {ps : List (Pass σ)} {e : LoopEnd} (h : Iterates loop walk left n carried a ps e b)
    (ha : a.Allows depth) (hvar : a.HasVariable loop.kind.counted?)
    (hleft : a.setup.options.maxLoopIterations.toInt.toNat - n = left) : ∃ t, Walks (.passes loop n carried) a t b := by
  have hnext (n : Nat) (carried : σ) (a : Assembly) : (Call.passes loop n carried).next a = loop.next n carried a := rfl
  have hpass {left n : Nat} {carried v : σ} {a b : Assembly} (hd : loop.decide n carried a = (some v, b))
      (ha : a.Allows depth) (hleft : a.setup.options.maxLoopIterations.toInt.toNat - n = left + 1) :
      ∃ t, Walks (.lines loop.body) b t ((walk loop.body).run b).2 ∧
        (Call.passes loop n carried).next a = .call (.lines loop.body) b (loop.resume n v b.symbols.top?) := by
    have hproceeds := Proceeds.housekeeping.decide loop n carried a
    have hsame := SameDepth.housekeeping.decide loop n carried a
    rw [hd] at hproceeds hsame
    obtain ⟨t, ht⟩ := hw loop.body b hm (ha.proceeds hproceeds hsame)
    refine ⟨t, ht, ?_⟩
    rw [hnext, LoopCall.next, hd]
    exact if_neg (by rw [(hproceeds ha.reachable).setup]; omega)
  -- Behind the lines of a pass the loop is over, or the next pass follows.
  have hresume {n : Nat} {v : σ} {b c : Assembly} {done : Bool} (hp : loop.pass walk b = (done, c)) :
      loop.resume n v b.symbols.top? ((walk loop.body).run b).2 =
        if loop.isOver c then (.nothing, ({ c with pos := loop.start } : Assembly).report .tooManyLoopErrors)
        else if done then (.nothing, c) else (.passes loop (n + 1) v, c) := by
    unfold LoopCall.pass at hp
    rw [LoopCall.resume, hp]
    rfl
  induction h with
  | declined hd =>
    refine ⟨_, .done ?_⟩
    rw [hnext, LoopCall.next, hd]
  | @overflow n carried v a b hd =>
    have hproceeds := Proceeds.housekeeping.decide loop n carried a
    rw [hd] at hproceeds
    refine ⟨_, .done ?_⟩
    rw [hnext, LoopCall.next, hd]
    exact if_pos (by rw [(hproceeds ha.reachable).setup]; omega)
  | faulty hd hp hover =>
    obtain ⟨t, ht, hcall⟩ := hpass hd ha hleft
    exact ⟨_, .call hcall ht (by rw [hresume hp, if_pos hover]; exact .nothing _)⟩
  | finished hd hp hover =>
    obtain ⟨t, ht, hcall⟩ := hpass hd ha hleft
    exact ⟨_, .call hcall ht (by rw [hresume hp, hover]; exact .nothing _)⟩
  | next hd hp hover _ ih =>
    obtain ⟨t, ht, hcall⟩ := hpass hd ha hleft
    obtain ⟨-, _, _, hback⟩ := Call.next_follows hcall hvar
    obtain ⟨-, hfollows, hvar'⟩ := hback _ (ht.follows (.none _))
    rw [hresume hp, hover, if_neg Bool.false_ne_true, if_neg Bool.false_ne_true] at hfollows hvar'
    obtain ⟨u, hu⟩ := ih (ha.proceeds hfollows.moves hfollows.level.depth) hvar' (by
      rw [(hfollows.moves ha.reachable).setup]
      omega)
    exact ⟨_, .call hcall ht (by rw [hresume hp, hover]; exact hu)⟩

/-! ### Blocks -/

section
variable {header : Statement}

theorem length_pickIf {picked : List SourceLine} (hpicked : picked.length ≤ m) {later : Walk (Option (List SourceLine))}
    (hlater : ∀ {a b : Assembly}, later.run a = (some lines, b) → lines.length ≤ m)
    (h : (pickIf header picked later).run a = (some lines, b)) : lines.length ≤ m := by
  rw [run_pickIf] at h
  split at h
  · cases h
    exact hpicked
  · exact hlater h
  · cases h

theorem length_pickSection {sections : List Section} (hs : ∀ s ∈ sections, s.body.length ≤ m)
    (h : (pickSection sections).run a = (some lines, b)) : lines.length ≤ m := by
  induction sections generalizing a b with
  | nil => cases h
  | cons s sections ih =>
    obtain ⟨hs, hsections⟩ := forall_mem_cons.1 hs
    exact length_pickIf hs (fun h => ih hsections h) h

theorem length_pickLines (h : (pickLines header body).run a = (some lines, b)) : lines.length ≤ body.length := by
  obtain ⟨hfirst, hsections⟩ := length_cutSections 0 body
  unfold pickLines at h
  rw [Walk.run_bind] at h
  generalize StateT.run (checkSections header _) a = checked at h
  obtain ⟨_ | _, c⟩ := checked
  · cases h
  · exact length_pickIf hfirst (fun h => length_pickSection hsections h) h

end

/-- At most `m` lines, or a loop around at most `m` lines that begins. -/
def Call.Fits (m : Nat) : Call → Prop
  | .lines ls => ls.length ≤ m
  | .passes loop n _ => n = 0 ∧ loop.body.length ≤ m
  | _ => False

/-- A further call, if there is one, fits, and is the only one. -/
def Next.Inside (m : Nat) : Next → Prop
  | .done _ => True
  | .call inner _ resume => inner.Fits m ∧ ∀ c, (resume c).1 = .nothing

theorem nextModule_inside (name : Option String) : (nextModule name body close a).Inside body.length := by
  unfold nextModule
  split
  · trivial
  split
  · trivial
  · exact ⟨Nat.le_refl _, fun _ => rfl⟩

theorem nextChoice_inside (header : Statement) : (nextChoice header body a).Inside body.length := by
  unfold nextChoice
  split
  · trivial
  · next hrun => exact ⟨length_pickLines hrun, fun _ => rfl⟩

theorem nextLabelled_inside (s : Statement) : (nextLabelled s body close a).Inside body.length := by
  have hloop {σ : Type} (kind : LoopKind σ) (first : σ) (b : Assembly) (leave : Assembly → Assembly) :
      (nextLoop kind first body close b leave).Inside body.length := ⟨⟨rfl, Nat.le_refl _⟩, fun _ => rfl⟩
  cases s with
  | ifTrue e => exact nextChoice_inside (.ifTrue e)
  | ifUsed s => exact nextChoice_inside (.ifUsed s)
  | ifUnused s => exact nextChoice_inside (.ifUnused s)
  | loop count =>
    unfold nextLabelled
    dsimp only
    split
    · trivial
    split
    · trivial
    · exact hloop _ _ _ _
  | whileTrue e => exact hloop _ _ _ _
  | repeatBody =>
    unfold nextLabelled
    dsimp only
    split
    · exact hloop _ _ _ _
    · trivial
  | forEach var first last step =>
    show (nextFor var first last step body close a).Inside body.length
    unfold nextFor
    split
    · trivial
    split
    · trivial
    · exact hloop _ _ _ _
  | proc => exact ⟨Nat.le_refl _, fun _ => rfl⟩
  | _ => trivial

theorem nextBlock_inside (line : SourceLine) (s : Statement) :
    (nextBlock line s body close a).Inside body.length := by
  cases s with
  | macroDef params => trivial
  | structDef => trivial
  | moduleDef arg => exact nextModule_inside _
  | _ =>
    unfold nextBlock
    exact nextLabelled_inside _

theorem LineWalker.Ends.block (hw : walk.Ends m depth) (ha : a.Allows depth) (hm : body.length ≤ m)
    (line : SourceLine) (s : Statement) (close : SourceLine) :
    ∃ t, Walks (.block line s body close) a t ((walkBlock walk line s body close).run a).2 := by
  have hinside : (nextBlock line s body close a).Inside body.length := nextBlock_inside line s
  rw [run_walkBlock]
  cases hnext : nextBlock line s body close a with
  | done b => exact ⟨_, .done hnext⟩
  | call inner b resume =>
    have hcall : (Call.block line s body close).next a = .call inner b resume := hnext
    rw [hnext] at hinside
    obtain ⟨hfits, hlast⟩ := hinside
    have hb := Call.allows_of_call rfl hcall ha
    obtain ⟨t, ht⟩ : ∃ t, Walks inner b t (inner.walkBy walk b) := by
      cases inner with
      | lines lines => exact hw lines b (Nat.le_trans hfits hm) hb
      | passes loop n carried =>
        obtain ⟨rfl, hlength⟩ := hfits
        obtain ⟨_, _, hpasses⟩ := iterates loop walk _ 0 carried b
        exact hw.passes (Nat.le_trans hlength hm) hpasses hb (Call.next_follows hcall (.none a)).1 rfl
      | _ => cases hfits
    exact ⟨_, .call hcall ht (by rw [hlast]; exact .nothing _)⟩

end

/-! ### Single lines and expansions -/

section
variable {line : SourceLine}

theorem run_walkSingle_of_none (h : a.invoked? line = none) (expand : Option LineWalker) :
    (walkSingle expand line).run a = (walkSingle none line).run a := by
  cases hs : line.stmt with
  | none => simp [walkSingle, hs]
  | some s =>
    cases s with
    | invoke name args =>
      unfold Assembly.invoked? at h
      rw [hs] at h
      dsimp only at h
      unfold walkSingle
      rw [hs]
      dsimp only
      by_cases hp : (Stmt.invoke name args).hasParam = true
      · simp [hp]
      · rw [if_neg hp, Option.map_eq_none_iff] at h
        rw [if_neg hp, if_neg hp]
        show (reporting (invoke expand line.pos name args)).run (a.atInvocation line) =
          (reporting (invoke none line.pos name args)).run (a.atInvocation line)
        unfold invoke
        rw [run_reporting, run_reporting, run_bind, run_get, run_bind, run_get]
        dsimp only
        rw [h]
    | _ => simp [walkSingle, hs, runStmt]

theorem run_walkSingle_of_some (h : a.invoked? line = some (d, args)) (expand : Option LineWalker) :
    (walkSingle expand line).run a = (reporting (expandMacro expand line.pos d args)).run (a.atInvocation line) := by
  unfold Assembly.invoked? at h
  split at h
  · next name args' hs =>
    split at h
    · cases h
    next hp =>
    obtain ⟨d', hd', heq⟩ := Option.map_eq_some_iff.1 h
    cases heq
    unfold walkSingle
    rw [hs]
    dsimp only
    rw [if_neg hp]
    show (reporting (invoke expand line.pos name args)).run (a.atInvocation line) = _
    rw [run_reporting, run_reporting]
    unfold invoke
    rw [run_bind, run_get]
    dsimp only
    rw [hd']
  · cases h

/-- How the lines of macros are walked: not at all if no expansion is allowed. -/
def ExpandsTo (expand : Option LineWalker) (depth : Nat) : Prop :=
  match expand with
  | none => depth = 0
  | some walk => ∃ inner, depth = inner + 1 ∧ ∀ m, walk.Ends m inner

section
variable {expand : Option LineWalker} {depth : Nat} (hexpand : ExpandsTo expand depth) (ha : a.Allows depth)
include hexpand ha

theorem ExpandsTo.expansion (d : MacroDef) (args : List Operand) (pos : Position) :
    ∃ t, Walks (.expand d args pos) a t ((reporting (expandMacro expand pos d args)).run a).2 := by
  have hnext : (Call.expand d args pos).next a = nextExpansion d args pos a := rfl
  unfold nextExpansion at hnext
  unfold expandMacro
  dsimp only at hnext ⊢
  split at hnext
  · next hargs =>
    rw [if_pos hargs]
    exact ⟨_, .done hnext⟩
  next hargs =>
  rw [if_neg hargs]
  show ∃ t, Walks _ a t ((reporting (if a.macroDepth ≥ a.setup.options.maxMacroDepth then _ else _)).run a).2
  split at hnext
  · next hlimit =>
    rw [if_pos hlimit]
    exact ⟨_, .done hnext⟩
  next hlimit =>
  rw [if_neg hlimit]
  cases expand with
  | none =>
    have hzero : depth = 0 := hexpand
    have := ha.limit
    omega
  | some walk =>
    obtain ⟨inner, rfl, hwalk⟩ := hexpand
    have hopen : a.openExpansion.Allows inner := by
      have hproceeds := Call.next_proceeds (.expand d args pos) a
      rw [hnext] at hproceeds
      refine ⟨hproceeds.1.reachable ha.reachable, ?_⟩
      show a.setup.options.maxMacroDepth ≤ a.macroDepth + 1 + inner
      rw [Nat.add_right_comm]
      exact ha.limit
    obtain ⟨t, ht⟩ := hwalk _ (Bindings.substituteLines ⟨d.params, args⟩ d.body) a.openExpansion (Nat.le_refl _) hopen
    exact ⟨_, .within hnext ht⟩

theorem ExpandsTo.single (line : SourceLine) : ∃ t, Walks (.line line) a t ((walkSingle expand line).run a).2 := by
  cases hinvoked : a.invoked? line with
  | none =>
    rw [run_walkSingle_of_none hinvoked]
    exact ⟨_, .done (Call.next_line hinvoked)⟩
  | some found =>
    obtain ⟨d, args⟩ := found
    have hnext : (Call.line line).next a = .last (.expand d args line.pos) (a.atInvocation line) := by
      unfold Call.next
      dsimp only
      rw [hinvoked]
    rw [run_walkSingle_of_some hinvoked]
    obtain ⟨t, ht⟩ := hexpand.expansion (Call.allows_of_call rfl hnext ha) d args line.pos
    exact ⟨_, .within hnext ht⟩

end

end

/-! ### Programs -/

/-- By induction on the lines that may still come: their walk is one of calls, and ends. -/
theorem walkLines_ends {expand : Option LineWalker} {depth : Nat} (hexpand : ExpandsTo expand depth)
    (n : Nat) : LineWalker.Ends (walkLines expand n) n depth := by
  induction n with
  | zero =>
    intro lines a hlength ha
    obtain rfl : lines = [] := length_eq_zero_iff.1 (Nat.le_zero.1 hlength)
    exact ⟨_, .done rfl⟩
  | succ n ih =>
    intro lines a hlength ha
    cases lines with
    | nil => exact ⟨_, .done rfl⟩
    | cons line lines =>
      have hrest : lines.length ≤ n := Nat.le_of_succ_le_succ hlength
      have hnext : (Call.lines (line :: lines)).next a = _ := rfl
      conv at hnext =>
        rhs
        unfold Call.next
      have hafter {inner : Call} {b c : Assembly} {t : Tally} {rest : List SourceLine}
          (hcall : (Call.lines (line :: lines)).next a = .call inner b fun d => (.lines rest, d))
          (hinner : Walks inner b t c) (hlength : rest.length ≤ n) :
          ∃ t, Walks (.lines (line :: lines)) a t ((walkLines expand n rest).run c).2 := by
        obtain ⟨hvar, _, _, hback⟩ := Call.next_follows hcall (.none a)
        obtain ⟨-, hfollows, -⟩ := hback c (hinner.follows hvar)
        obtain ⟨u, hu⟩ := ih rest c hlength (ha.proceeds hfollows.moves hfollows.level.depth)
        exact ⟨_, .call hcall hinner hu⟩
      unfold walkLines
      rw [Walk.run_bind]
      show ∃ t, Walks _ a t ((if a.isInterrupted then _ else _ : Walk Unit).run a).2
      dsimp only at hnext
      by_cases hinterrupted : a.isInterrupted = true
      · rw [if_pos hinterrupted] at hnext ⊢
        exact ⟨_, .done hnext⟩
      rw [if_neg hinterrupted] at hnext ⊢
      rw [Walk.run_bind]
      generalize line.role = role at hnext ⊢
      cases role with
      | opens block s =>
        dsimp only at hnext ⊢
        rw [Walk.run_bind]
        generalize hsplit : splitBlock block [] lines = split at hnext ⊢
        obtain _ | ⟨body, close, rest⟩ := split
        · exact ⟨_, .done hnext⟩
        · dsimp only at hnext ⊢
          rw [Walk.run_bind]
          have hlengths := length_splitBlock hsplit
          have hbody : body.length ≤ n := by omega
          obtain ⟨t, ht⟩ := ih.block (Call.allows_of_call rfl hnext ha) hbody line s close
          exact hafter hnext ht (by omega)
      | orphan closer opener =>
        obtain ⟨t, ht⟩ := ih lines _ hrest (Call.allows_of_call rfl hnext ha)
        exact ⟨_, .within hnext ht⟩
      | single =>
        rw [Walk.run_bind]
        obtain ⟨t, ht⟩ := hexpand.single (Call.allows_of_call rfl hnext ha) line
        exact hafter hnext ht hrest

theorem walkDepth_ends (depth m : Nat) : LineWalker.Ends (walkDepth depth) m depth := by
  intro lines a _
  induction depth generalizing lines a m with
  | zero =>
    have hexpand : ExpandsTo none 0 := rfl
    exact walkLines_ends hexpand lines.length lines a (Nat.le_refl _)
  | succ depth ih =>
    have hexpand : ExpandsTo (some (walkDepth depth)) (depth + 1) := ⟨depth, rfl, ih⟩
    exact walkLines_ends hexpand lines.length lines a (Nat.le_refl _)

theorem walkProgram_walks (setup : Setup) (lines : List SourceLine) :
    ∃ t, Walks (.lines lines) (.new setup) t ((walkProgram lines).run (.new setup)).2 :=
  walkDepth_ends setup.options.maxMacroDepth lines.length lines (.new setup) (Nat.le_refl _)
    ⟨⟨setup, .refl⟩, Nat.le_add_left _ _⟩

/-- Every program is walked to its end. Whatever its lines and the settings are, the calls that walking
them leads to come to an end in one way only, which is the one the assembler takes; expansions of
macros nest no deeper than the settings allow, and no loop has more passes than they allow. -/
theorem walkProgram_ends (setup : Setup) (lines : List SourceLine) :
    ∃ t, Walks (.lines lines) (.new setup) t ((walkProgram lines).run (.new setup)).2 ∧
      (∀ u b, Walks (.lines lines) (.new setup) u b → u = t ∧ b = ((walkProgram lines).run (.new setup)).2) ∧
      t.nesting ≤ setup.options.maxMacroDepth ∧ t.passes ≤ setup.options.maxLoopIterations.toInt.toNat := by
  obtain ⟨t, ht⟩ := walkProgram_walks setup lines
  obtain ⟨hnesting, hpasses⟩ := ht.bounded (.none _) ⟨setup, .refl⟩
  refine ⟨t, ht, fun u b hu => hu.deterministic ht, ?_, hpasses⟩
  change t.nesting + 0 ≤ max 0 setup.options.maxMacroDepth at hnesting
  omega

/-! ## The lines visited -/

/-- A property of the lines visited so far is kept by every call, if lines by themselves, the heads of
expansions and all that happens in between keep it. -/
theorem Housekeeping.logs {R : Assembly → Assembly → Prop} [IsPreorder Assembly R] (h : Housekeeping R)
    (hdepth : ∀ (a : Assembly) (n : Nat), R a { a with macroDepth := n })
    {I : List (SourceLine × Assembly) → Assembly → Prop}
    (hkeep : ∀ {log a b}, I log a → R a b → Proceeds a b → I log b)
    (hsingle : ∀ {log a line}, I log a → Proceeds a ((walkSingle none line).run a).2 →
      I (log ++ [(line, a)]) ((walkSingle none line).run a).2)
    (hinvoked : ∀ {log a line}, I log a → a.invoked? line ≠ none → Proceeds a (a.atInvocation line) →
      I (log ++ [(line, a)]) (a.atInvocation line))
    (call : Call) (a : Assembly) (log : List (SourceLine × Assembly)) (hI : I log a) :
    (call.next a).Logs I call a log := by
  have hproceeds := call.next_proceeds a
  have hkeeps (hown : (call.own a).visits = []) (haround : (call.around a {}).visits = [])
      (hnext : (call.next a).Keeps R a) : (call.next a).Logs I call a log := by
    cases hn : call.next a with
    | done b =>
      rw [hn] at hnext hproceeds
      simp only [Next.Logs, hown, append_nil]
      exact hkeep hI hnext hproceeds
    | call inner b resume =>
      rw [hn] at hnext hproceeds
      simp only [Next.Logs, haround, append_nil]
      exact ⟨hkeep hI hnext.1 hproceeds.1, fun log c hc => hkeep hc (hnext.2 c) (hproceeds.2 c)⟩
  cases call with
  | line line =>
    unfold Call.next at hproceeds ⊢
    dsimp only at hproceeds ⊢
    cases hline : a.invoked? line with
    | none =>
      rw [hline] at hproceeds
      exact hsingle hI hproceeds
    | some invoked =>
      rw [hline] at hproceeds
      exact ⟨hinvoked hI (by simp [hline]) hproceeds.1, fun _ _ hc => hc⟩
  | _ => exact hkeeps rfl rfl (h.next (.inr hdepth) fun _ h => by cases h)

end SpectrumAsm
