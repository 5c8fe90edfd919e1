/-
Walks through a program and a rewritten one.

The two walks go along with one another call by call (`Walks.alike`). Each pass of a loop that is written out
goes along with one copy of its lines: nothing can be defined in such a pass, and what waits in it is found from
the scope around the loop as well. A label that is put on the next line waits for it in one program, and nothing
happens in the other.
-/
import SpectrumAsm.Proofs.AlikeWalks
import SpectrumAsm.Proofs.EntryAddress
import SpectrumAsm.Proofs.Layout

namespace SpectrumAsm

open List Assembly Call

variable {K : Rewriting} {free : Prop} {π : ScopeMap} {a b c d : Assembly} {body ls ms rest : List SourceLine}
  {t u : Tally} {close start l : SourceLine} {call inner : Call} {n : Nat}
  {copies : List (List SourceLine)} {count : Int64}

/-! ## Reports of walks -/

section
variable {P : Diagnostic → Prop}

theorem Reported.before (h : Reported a b) (hb : ∀ x ∈ b.diagnostics, P x) : ∀ x ∈ a.diagnostics, P x := by
  obtain ⟨more, hmore⟩ := h
  intro x hx
  exact hb x (hmore ▸ Array.mem_append_left _ hx)

theorem Proceeds.before (h : Proceeds a b) (ha : Reachable a) (hb : ∀ x ∈ b.diagnostics, P x) :
    ∀ x ∈ a.diagnostics, P x := (h ha).reported.before hb

end

theorem Proceeds.quiet (h : Proceeds a b) (ha : Reachable a) (hb : b.diagnostics = #[]) : a.diagnostics = #[] :=
  Array.eq_empty_iff_forall_not_mem.2 (h.before ha (Array.eq_empty_iff_forall_not_mem.1 hb))

variable {resume : Assembly → Call × Assembly}

theorem Walks.before_resume {P : Diagnostic → Prop} (h : call.next a = .call inner b resume)
    (hinner : Walks inner b t c) (hrest : Walks (resume c).1 (resume c).2 u d) (ha : Reachable a)
    (hd : ∀ x ∈ d.diagnostics, P x) : (∀ x ∈ c.diagnostics, P x) ∧ ∀ x ∈ (resume c).2.diagnostics, P x := by
  obtain ⟨hb, -, hresume, -⟩ := setup_of_call h hinner ha
  have hback := hrest.proceeds.before hresume hd
  have hnext := call.next_proceeds a
  rw [h] at hnext
  exact ⟨(hnext.2 c).before (hinner.proceeds.reachable hb) hback, hback⟩

theorem Walks.quiet_resume (h : call.next a = .call inner b resume) (hinner : Walks inner b t c)
    (hrest : Walks (resume c).1 (resume c).2 u d) (ha : Reachable a) (hd : d.diagnostics = #[]) :
    c.diagnostics = #[] ∧ (resume c).2.diagnostics = #[] := by
  rw [Array.eq_empty_iff_forall_not_mem] at hd
  rw [Array.eq_empty_iff_forall_not_mem, Array.eq_empty_iff_forall_not_mem]
  exact Walks.before_resume h hinner hrest ha hd

theorem Assembly.report_ne_empty (a : Assembly) (fault : Fault) : (a.report fault).diagnostics ≠ #[] := by
  simp [Assembly.report, reportAt]

/-! ## Plain lines -/

namespace Assembly

def afterLine (a : Assembly) (l : SourceLine) : Assembly := ((walkSingle none l).run (a.moveTo l.pos)).2

/-- The waiting label defined and the open instance closed, as a line does before anything else. -/
def settled (a : Assembly) : Assembly := ({ a with opened := none } : Assembly).flushLabel

theorem hanging_settled (a : Assembly) : a.settled.hanging = none := by
  obtain ⟨_, _, h⟩ := ({ a with opened := none } : Assembly).flushLabel_eq
  exact congrArg hanging h

theorem isInterrupted_settled (a : Assembly) : a.settled.isInterrupted = a.isInterrupted := by
  unfold settled flushLabel
  cases a.hanging with
  | none => rfl
  | some x =>
    dsimp only
    rw [bindLabel_if]
    split
    · rfl
    · exact congrArg Option.isSome (a.symbols.exit_modifySymbols _ _)

theorem flushLabel_settled (a : Assembly) (pos : Position) :
    ({ a.settled.moveTo pos with opened := none } : Assembly).flushLabel =
      ({ a.moveTo pos with opened := none } : Assembly).flushLabel := by
  refine (flushLabel_idle (a := { a.settled.moveTo pos with opened := none }) a.hanging_settled).trans ?_
  unfold settled flushLabel
  dsimp only [moveTo]
  cases a.hanging with
  | none => rfl
  | some x =>
    dsimp only
    rw [bindLabel_if, bindLabel_if]
    split <;> rfl

end Assembly

theorem Stmt.Plain.run_congr {s : Stmt} (hs : s.Plain free) (h : a.bindLineLabel l = b.bindLineLabel l) :
    (runStmt none l s).run a = (runStmt none l s).run b := by
  rcases hs.emits with ⟨mnemonic, operands, rfl⟩ | ⟨p, rfl, hdata⟩
  · show (reporting (emitOperation mnemonic operands)).run ((a.bindLineLabel l).recordLine l.pos) = _
    rw [h]
    rfl
  · have hsets : p.setsLabel = false := by
      cases p <;> first | rfl | cases hdata
    unfold runStmt
    dsimp only
    rw [hsets]
    show (reporting (runPragma none p)).run (a.bindLineLabel l) = _
    rw [h]
    rfl

namespace SourceLine.Plain

variable (h : l.Plain free)
include h

theorem invoked? (a : Assembly) : a.invoked? l = none := by
  rcases h.emits with ⟨m, operands, hs⟩ | ⟨p, hs⟩ <;> rw [Assembly.invoked?, hs]

theorem walks_rest (hwalk : Walks (.lines (l :: rest)) a t d) (hgoes : a.isInterrupted = false) :
    (∃ u, Walks (.lines rest) (a.afterLine l) u d) ∧ Proceeds a (a.afterLine l) := by
  obtain ⟨c, _, u, hinner, hrest, -⟩ := hwalk.of_call (next_single hgoes h.role)
  have hproceeds := (lines (l :: rest)).next_proceeds a
  rw [next_single hgoes h.role] at hproceeds
  obtain ⟨-, rfl⟩ := hinner.of_done (next_line (h.invoked? _))
  exact ⟨⟨u, hrest⟩, IsTrans.trans _ _ _ hproceeds.1 hinner.proceeds⟩

theorem walks (hrest : Walks (.lines rest) (a.afterLine l) u d) (hgoes : a.isInterrupted = false) :
    ∃ t, Walks (.lines (l :: rest)) a t d := ⟨_, .single hgoes h.role (h.invoked? _) hrest⟩

theorem afterLine_settled (a : Assembly) (hquiet : (a.afterLine l).diagnostics = #[]) :
    a.settled.afterLine l = a.afterLine l := by
  obtain ⟨s, hs, hplain⟩ := h.stmt
  have hrun (b : Assembly) : b.afterLine l =
      ((if s.hasParam then modify fun a => a.report (a.paramFault s) else runStmt none l s : Walk Unit).run
        { b.moveTo l.pos with opened := none }).2 := by
    have hkeeps : s.keepsInstance = false := by
      rcases hplain.emits with ⟨m, operands, rfl⟩ | ⟨p, rfl, -⟩ <;> rfl
    unfold afterLine
    rw [run_walkSingle_stmt hs, hkeeps, if_neg Bool.false_ne_true]
  have hbind (b : Assembly) : b.bindLineLabel l = b.flushLabel := by
    unfold bindLineLabel
    rw [h.label]
  have hsettled := (hbind _).trans ((a.flushLabel_settled l.pos).trans (hbind _).symm)
  rw [hrun] at hquiet
  rw [hrun, hrun]
  by_cases hparam : s.hasParam = true
  · rw [if_pos hparam] at hquiet
    exact absurd hquiet (report_ne_empty _ _)
  rw [if_neg hparam]
  rw [hplain.run_congr hsettled]

end SourceLine.Plain

theorem Walks.settled (h : Walks (.lines (l :: rest)) a t d) (hl : l.Plain free) (hgoes : a.isInterrupted = false)
    (ha : Reachable a) (hd : d.diagnostics = #[]) : ∃ u, Walks (.lines (l :: rest)) a.settled u d := by
  obtain ⟨⟨u, hrest⟩, hproceeds⟩ := hl.walks_rest h hgoes
  have hquiet := hrest.proceeds.quiet (hproceeds.reachable ha) hd
  rw [← hl.afterLine_settled a hquiet] at hrest
  exact hl.walks hrest (a.isInterrupted_settled.trans hgoes)

/-! ## Passes -/

namespace Assembly.Alike

theorem moveFirst {pass : Option Nat} (h : a.Alike K π pass False b) (hexact : ¬K.exact) (pos : Position) :
    (a.moveTo pos).Alike K π pass False b :=
  { h with
    held := fun hid => ⟨(h.held hid).hanging, (h.held hid).waits⟩
    pos := fun hK => absurd hK hexact
    origin := False.elim
    file := False.elim }

section
variable {id : Nat} (h : a.Alike K π (some id) False b)
include h

theorem top_pass : a.symbols.top? = some id := by
  cases h.symbols.active with
  | inside hactive _ _ _ =>
    unfold SymbolTable.top?
    rw [hactive]
    rfl

theorem isInterrupted_pass : a.isInterrupted = false := by
  unfold Assembly.isInterrupted
  rw [h.goesOn.1]
  rfl

theorem run_endPass (hclose : close.ClosesLoop) :
    (endPass close (pure false) (some id)).run a = (false, (a.moveTo close.pos).closeScope) := by
  have hended : a.bindEndLabel close.label close.pos = a := by
    unfold Assembly.bindEndLabel Assembly.flushLabel
    rw [hclose.1, (h.held rfl).hanging]
  unfold endPass
  rw [Walk.run_bind]
  show StateT.run _ ((a.bindEndLabel close.label close.pos).resolveScope id) = _
  rw [hended, h.resolvePass, run_closePass, h.goesOn.1]
  rfl

end

end Assembly.Alike

theorem Walks.pass_alike (hK : K.Unrolls) {copy : List SourceLine} (hcopy : Forall₂ SourceLine.Same body copy)
    (hbody : ∀ l ∈ body, l.Plain K.free) {id : Nat}
    (h : a.Alike K π (some id) False b) (hx : Walks (.lines body) a t c) (hy : Walks (.lines (copy ++ rest)) b u d) :
    ∃ b' u', c.Alike K π (some id) False b' ∧ Walks (.lines rest) b' u' d ∧ Proceeds b b' := by
  induction hcopy generalizing a b t u with
  | nil =>
    obtain ⟨-, rfl⟩ := hx.of_done rfl
    exact ⟨b, u, h, hy, refl b⟩
  | @cons l m ls ms hlm _ ih =>
    obtain ⟨hl, hls⟩ := forall_mem_cons.1 hbody
    obtain ⟨⟨t', hx⟩, -⟩ := hl.walks_rest hx h.isInterrupted_pass
    obtain ⟨⟨u', hy⟩, hproceeds⟩ := (hlm.plain hl).walks_rest hy h.goesOn.2
    have hmoved := h.moveTo (p := l.pos) (q := m.pos) ⟨hlm.file, fun hexact => absurd hexact hK.inexact⟩
    have hstep := (plain_alike hK hmoved hlm hl).offLine
    obtain ⟨b', u'', hend, hrest, hproceeds'⟩ := ih hls hstep hx hy
    exact ⟨b', u'', hend, hrest, IsTrans.trans _ _ _ hproceeds hproceeds'⟩

/-- The scope of the pass behind `n` others, opened on the line that opens the loop. -/
def LoopCall.openPass {σ : Type} (loop : LoopCall σ) (n : Nat) (a : Assembly) : Assembly :=
  (a.enterScope .pass (Int64.ofNat (n + 1))).moveTo loop.start

section
variable {loop : LoopCall Unit} (hkind : loop.kind = .counted count)
include hkind

theorem next_counted (n : Nat) (a : Assembly) : (passes loop n ()).next a = if Int64.ofNat (n + 1) ≤ count then
      if a.setup.options.maxLoopIterations.toInt.toNat ≤ n then
        .done ((loop.openPass n a).closeScope.report .loopOverflow)
      else .call (.lines loop.body) (loop.openPass n a) (loop.resume n () (loop.openPass n a).symbols.top?)
    else .done (loop.openPass n a).closeScope := by
  have hdecide : loop.decide n () a = (if Int64.ofNat (n + 1) ≤ count then some () else none, loop.openPass n a) := by
    unfold LoopCall.decide
    rw [hkind]
    rfl
  unfold Call.next LoopCall.next
  dsimp only
  rw [hdecide]
  by_cases hpass : Int64.ofNat (n + 1) ≤ count
  · rw [if_pos hpass, if_pos hpass]
    rfl
  · rw [if_neg hpass, if_neg hpass]

omit hkind in
theorem pass_le_count (h : n < count.toInt.toNat) : Int64.ofNat (n + 1) ≤ count := by
  have hlt := count.toInt_lt
  rw [Int64.le_iff_toInt_le, Int64.toInt_ofNat_of_lt (by omega)]
  omega

omit hkind in
theorem limit_le_of_pass_le (h : n = count.toInt.toNat) (hpass : Int64.ofNat (n + 1) ≤ count)
    (limit : Int64) : limit.toInt.toNat ≤ n := by
  have hlt := limit.toInt_lt
  rcases Nat.lt_or_ge (n + 1) (2 ^ 63) with hsmall | hlarge
  · rw [Int64.le_iff_toInt_le, Int64.toInt_ofNat_of_lt hsmall] at hpass
    omega
  · omega

/-- The passes of a loop go along with as many copies of its lines. -/
theorem Walks.passes_alike (hK : K.Unrolls) (hclose : loop.close.ClosesLoop) (hbody : ∀ l ∈ loop.body, l.Plain K.free)
    (hcopies : ∀ copy ∈ copies, Forall₂ SourceLine.Same loop.body copy)
    (hlength : n + copies.length = count.toInt.toNat) {π : ScopeMap} (h : a.Alike K π none False b)
    (hhanging : a.hanging = none) (hgoes : a.isInterrupted = false)
    (hlimit : count ≤ a.setup.options.maxLoopIterations) (ha : Reachable a) (hx : Walks (.passes loop n ()) a t c)
    (hc : c.diagnostics = #[]) (hy : Walks (.lines (copies.flatten ++ ms)) b u d) :
    ∃ π' b' u', π.Extends π' ∧ c.Alike K π' none False b' ∧ Walks (.lines ms) b' u' d ∧ Proceeds b b' := by
  induction copies generalizing n π a b t u with
  | nil =>
    have hopened := (h.enterPass hhanging hgoes (Int64.ofNat (n + 1))).moveFirst hK.inexact loop.start
    have hnext := next_counted hkind n a
    change n = count.toInt.toNat at hlength
    by_cases hpass : Int64.ofNat (n + 1) ≤ count
    · rw [if_pos hpass, if_pos (limit_le_of_pass_le hlength hpass _)] at hnext
      rw [(hx.of_done hnext).2] at hc
      exact absurd hc (report_ne_empty _ _)
    · rw [if_neg hpass] at hnext
      rw [(hx.of_done hnext).2]
      exact ⟨_, b, u, .update h.symbols.fresh _, hopened.leavePass, hy, refl b⟩
  | cons copy copies ih =>
    obtain ⟨hcopy, hcopies⟩ := forall_mem_cons.1 hcopies
    rw [length_cons] at hlength
    rw [flatten_cons, append_assoc] at hy
    have hlimit' := Int64.le_iff_toInt_le.1 hlimit
    have hopened : (loop.openPass n a).Alike K _ _ _ b :=
      (h.enterPass hhanging hgoes (Int64.ofNat (n + 1))).moveFirst hK.inexact loop.start
    have hnext := next_counted hkind n a
    rw [if_pos (pass_le_count (by omega)), if_neg (by omega), hopened.top_pass] at hnext
    obtain ⟨walked, t', t'', hinner, hrest, -⟩ := hx.of_call hnext
    obtain ⟨b', u', hwalked, hy, hproceeds⟩ := hinner.pass_alike hK hcopy hbody hopened hy
    obtain ⟨-, -, hreachable, hsetup⟩ := setup_of_call hnext hinner ha
    have hfinished : loop.kind.rule.finished = pure false := by
      rw [hkind]
      rfl
    have hover := LoopCall.resume_quiet (Walks.quiet_resume hnext hinner hrest ha hc).2
    have hresume : loop.resume n () (some a.symbols.nextScope) walked =
        (.passes loop (n + 1) (), (walked.moveTo loop.close.pos).closeScope) := by
      unfold LoopCall.resume
      rw [hfinished, hwalked.run_endPass hclose] at hover ⊢
      dsimp only at hover ⊢
      rw [hover]
      rfl
    rw [hresume] at hrest hreachable hsetup
    have hleft := (hwalked.moveFirst hK.inexact loop.close.pos).leavePass
    have hgoes' := hleft.isInterrupted.symm.trans hwalked.goesOn.2
    rw [← hsetup] at hlimit
    obtain ⟨π', b'', u'', hextends, hend, hy, hproceeds'⟩ := ih hcopies (by omega) hleft (hwalked.held rfl).hanging
      hgoes' hlimit hreachable hrest hy
    exact ⟨π', b'', u'', (ScopeMap.Extends.update h.symbols.fresh _).trans hextends, hend, hy,
      IsTrans.trans _ _ _ hproceeds hproceeds'⟩

end

/-! ## Loops -/

/-- A loop goes along with the lines written in its place. -/
theorem Walks.loop_alike (hloop : K.WritesOut count start body close copies)
    (h : a.Alike K π none False b) (hgoes : a.isInterrupted = false)
    (ha : Reachable { a with opened := none }) (hb : Reachable b)
    (hx : Walks (.block start (.loop (.int count)) body close) { a with opened := none } t c)
    (hc : c.diagnostics = #[]) (hy : Walks (.lines (copies.flatten ++ ms)) b u d)
    (hd : d.diagnostics = #[]) :
    ∃ π' b' u', π.Extends π' ∧ c.Alike K π' none False b' ∧ Walks (.lines ms) b' u' d ∧ Proceeds b b' := by
  obtain ⟨hK, hstart, hclose, hbody, hne, hcount, hlength, hcopies⟩ := hloop
  -- the first of the lines written in the place of the loop settles the state as the loop does
  have hsettled : ∃ u', Walks (.lines (copies.flatten ++ ms)) b.settled u' d := by
    obtain ⟨copy, copies, rfl⟩ : ∃ copy rest, copies = copy :: rest := exists_cons_of_length_pos (by omega)
    have hcopy := hcopies copy mem_cons_self
    cases hcopy with
    | nil => exact absurd rfl hne
    | cons hlm _ => exact hy.settled (hlm.plain (hbody _ mem_cons_self)) (h.isInterrupted.trans hgoes) hb hd
  obtain ⟨u', hy⟩ := hsettled
  have hopened : ({ a with opened := none } : Assembly).bindLineLabel start = a.settled := by
    unfold bindLineLabel
    rw [hstart.1]
    rfl
  have hnext : (block start (.loop (.int count)) body close).next { a with opened := none } =
      if count > a.settled.setup.options.maxLoopIterations then _ else _ :=
    congrArg (nextLabelled (.loop (.int count)) body close) hopened
  have hproceeds : Proceeds b b.settled :=
    IsTrans.trans _ _ _ (Proceeds.housekeeping.closeInstance b) (Proceeds.housekeeping.flushLabel _)
  by_cases hlarge : count > a.settled.setup.options.maxLoopIterations
  · rw [if_pos hlarge] at hnext
    rw [(hx.of_done hnext).2] at hc
    exact absurd hc (report_ne_empty _ _)
  rw [if_neg hlarge] at hnext
  obtain ⟨walked, t', t'', hinner, hrest, -⟩ := hx.of_call hnext
  obtain ⟨-, rfl⟩ := hrest.of_done rfl
  obtain ⟨hreachable, -, -, -⟩ := setup_of_call hnext hinner ha
  have hstates : a.settled.Alike K π none False b.settled := (h.setOpened none).flushLabel
  obtain ⟨π', b', u'', hextends, hend, hy, hproceeds'⟩ := hinner.passes_alike rfl hK hclose hbody hcopies
    (by omega) hstates a.hanging_settled (a.isInterrupted_settled.trans hgoes) (Int64.not_lt.1 hlarge) hreachable hc hy
  exact ⟨π', b', u'', hextends, hend, hy, IsTrans.trans _ _ _ hproceeds hproceeds'⟩

theorem next_lines_loop (hloop : K.WritesOut count start body close copies) (ls : List SourceLine) (a : Assembly) :
    (lines (start :: (body ++ close :: ls))).next a = if a.isInterrupted then .done a
      else .call (.block start (.loop (.int count)) body close) { a.moveTo start.pos with opened := none }
        fun b => (.lines ls, b) := by
  have hrole : start.role = .opens .loop (.loop (.int count)) := by
    unfold SourceLine.role
    rw [hloop.opens.2]
    rfl
  have hend : splitBlock .loop [] (close :: ls) = some ([], close, ls) := by
    unfold splitBlock
    rw [hloop.closes.closes.1, hloop.closes.closes.2]
    rfl
  have hsplit : splitBlock .loop [] (body ++ close :: ls) = some (body, close, ls) := by
    rw [splitBlock_bracketed (uncut_of_plain hloop.plain), hend]
    simp [inFront]
  unfold Call.next
  dsimp only
  rw [hrole]
  dsimp only
  rw [hsplit]

theorem next_interrupted (h : a.isInterrupted = true) (ls : List SourceLine) : (lines ls).next a = .done a := by
  cases ls with
  | nil => rfl
  | cons l ls =>
    unfold Call.next
    dsimp only
    rw [if_pos h]

/-! ## Labels -/

theorem next_label (hbare : l.stmt = none) {name : String} (hname : l.label = some name) (hidle : a.hanging = none) :
    (line l).next a = .done { a with hanging := some (name, l.pos) } := by
  have hinvoked : a.invoked? l = none := by
    unfold invoked?
    rw [hbare]
  rw [next_line hinvoked, walkSingle, hbare, hname]
  show Next.done { a.flushLabel with hanging := _ } = _
  rw [flushLabel_idle hidle]

theorem role_of_bare (hbare : l.stmt = none) : l.role = .single := by
  unfold SourceLine.role
  rw [hbare]

theorem Call.mem_visits_around {visit : SourceLine × Assembly} (h : visit ∈ t.visits) :
    visit ∈ (call.around a t).visits := by
  cases call with
  | line l => exact mem_cons_of_mem _ h
  | _ => exact h

theorem Walks.mem_visits (h : Walks (.line l) a t b) : (l, a) ∈ t.visits := by
  cases h with
  | done => exact mem_cons_self
  | call => exact mem_append_left _ mem_cons_self

/-! ## Walks -/

/-- Walks of calls that are alike lead to states that are alike, if nothing bad is reported, and no label waits where
one is put on the next line. The induction is on the first walk; at a loop that is written out, the second walk is
cut behind the lines in its place, and at a label it does not move. -/
theorem Walks.alike {x y : Call} (hx : Walks x a t c) (hy : Walks y b u d) (hcall : CallAlike K π x a y b)
    (ha : Reachable a) (hb : Reachable b) (hgood : ∀ x ∈ c.diagnostics, ¬K.bad x)
    (hquiet : K.Quiet → d.diagnostics = #[]) (hfirst : ∀ visit ∈ t.visits, K.hung visit.1 → visit.2.hanging = none) :
    ∃ π', π.Extends π' ∧ c.Alike K π' none False d := by
  induction hx generalizing π y b u d with
  | @done x a c hnext =>
    have hbefore := (Walks.done hnext).proceeds.before ha hgood
    rcases hcall.next hbefore (fun c' hc' => by rw [hnext] at hc'; cases hc'; exact hgood) with hstep | hlines
    · rw [hnext] at hstep
      generalize hnext' : y.next b = next at hstep
      cases hstep with
      | done hπ h =>
        obtain ⟨-, rfl⟩ := hy.of_done hnext'
        exact ⟨_, hπ, h⟩
    · have hstop (h : a.Alike K π none False b) (hleft : a.isInterrupted = true) (hc : c = a) {ms : List SourceLine}
          (hy : Walks (.lines ms) b u d) : ∃ π', π.Extends π' ∧ c.Alike K π' none False d := by
        obtain ⟨-, rfl⟩ := hy.of_done (next_interrupted (h.isInterrupted.trans hleft) _)
        exact ⟨π, .refl π, hc ▸ h⟩
      cases hlines with
      | loop hloop hrest h =>
        rw [next_lines_loop hloop] at hnext
        split at hnext
        · next hleft =>
          cases hnext
          exact hstop h hleft rfl hy
        · cases hnext
      | label hjoins hargs hrest h =>
        cases hleft : a.isInterrupted with
        | true =>
          rw [next_interrupted hleft] at hnext
          cases hnext
          exact hstop h hleft rfl hy
        | false =>
          rw [next_single hleft (role_of_bare hjoins.bare)] at hnext
          cases hnext
  | @call x inner a a' c' c resume t₁ t₂ hnext hinner hrest ihinner ihrest =>
    obtain ⟨ha', -, hareturns, -⟩ := setup_of_call hnext hinner ha
    obtain ⟨hc', hcreturns⟩ := Walks.before_resume hnext hinner hrest ha hgood
    have hbefore := (Walks.call hnext hinner hrest).proceeds.before ha hgood
    have hfirst₁ (visit : SourceLine × Assembly) (hv : visit ∈ t₁.visits) : K.hung visit.1 → visit.2.hanging = none :=
      hfirst visit (mem_append_left _ (mem_visits_around hv))
    have hfirst₂ (visit : SourceLine × Assembly) (hv : visit ∈ t₂.visits) : K.hung visit.1 → visit.2.hanging = none :=
      hfirst visit (mem_append_right _ hv)
    rcases hcall.next hbefore (fun c' hc' => by rw [hnext] at hc'; cases hc') with hstep | hlines
    · rw [hnext] at hstep
      generalize hnext' : y.next b = next at hstep
      cases hstep with
      | call hπ hcall hresume =>
        obtain ⟨d', u₁, u₂, hinner', hrest', -⟩ := hy.of_call hnext'
        obtain ⟨hb', -, hbreturns, -⟩ := setup_of_call hnext' hinner' hb
        have hreturns (hK : K.Quiet) := Walks.quiet_resume hnext' hinner' hrest' hb (hquiet hK)
        obtain ⟨τ, hτ, h⟩ := ihinner hinner' hcall ha' hb' hc' (fun hK => (hreturns hK).1) hfirst₁
        have hgoes := hresume hτ h hcreturns fun hK => (hreturns hK).2
        obtain ⟨τ', hτ', h⟩ := ihrest hrest' hgoes hareturns hbreturns hgood hquiet hfirst₂
        exact ⟨τ', hπ.trans (hτ.trans hτ'), h⟩
    · cases hlines with
      | loop hloop hlines h =>
        have hK := hloop.unrolls
        rw [next_lines_loop hloop] at hnext
        split at hnext
        · cases hnext
        · next hinterrupted =>
          have hgoes := Bool.eq_false_iff.2 hinterrupted
          cases hnext
          obtain ⟨τ, b', u', hτ, h, hy, hproceeds⟩ := hinner.loop_alike hloop (h.moveFirst hK.inexact _) hgoes ha' hb
            (hK.quiet.no_reports hc') hy (hquiet hK.quiet)
          obtain ⟨τ', hτ', h⟩ := ihrest hy (.lines hlines h) hareturns (hproceeds.reachable hb) hgood hquiet hfirst₂
          exact ⟨τ', hτ.trans hτ', h⟩
      | @label label l m ls ms hjoins hargs hlines h =>
        cases hgoes : a.isInterrupted with
        | true =>
          rw [next_interrupted hgoes] at hnext
          cases hnext
        | false =>
          rw [next_single hgoes (role_of_bare hjoins.bare)] at hnext
          cases hnext
          obtain ⟨name, hname, -⟩ := hjoins.name
          have hidle := hfirst₁ _ hinner.mem_visits hjoins.hung
          obtain ⟨-, rfl⟩ := hinner.of_done (next_label hjoins.bare hname hidle)
          have hnone : b.hanging = none := by
            have hhanging := h.hanging
            rw [show a.hanging = none from hidle] at hhanging
            generalize b.hanging = waiting at hhanging ⊢
            cases hhanging with
            | none => rfl
          have hwaits : Alike K π none False { a.moveTo label.pos with hanging := none } b :=
            { h.moveFirst hjoins.inexact label.pos with
              hanging := by rw [hnone]; exact .none
              held := held_none }
          exact ihrest hy (.labelled hjoins hargs hlines hname rfl hnone hgoes hwaits) hareturns hb hgood hquiet hfirst₂

/-! ## Programs -/

theorem forall₂_append_left {α β : Type} {R : α → β → Prop} {xs ys : List α} {zs : List β}
    (h : Forall₂ R (xs ++ ys) zs) : ∃ zs₁ zs₂, zs = zs₁ ++ zs₂ ∧ Forall₂ R xs zs₁ ∧ Forall₂ R ys zs₂ :=
  ⟨zs.take xs.length, zs.drop xs.length, (take_append_drop _ _).symm,
    (forall₂_take_append _ _ _ h.flip).flip, (forall₂_drop_append _ _ _ h.flip).flip⟩

namespace Rewritten

theorem ofLines (h : Forall₂ K.Line ls ms) (hargs : ∀ l ∈ ls, l.PassesSteady K.free) : Rewritten K ls ms := by
  induction h with
  | nil => exact .nil
  | cons hline _ ih =>
    obtain ⟨hl, hls⟩ := forall_mem_cons.1 hargs
    exact .cons hline hl (ih hls)

theorem append {ls' ms' : List SourceLine} (h : Rewritten K ls ms) (h' : Rewritten K ls' ms') :
    Rewritten K (ls ++ ls') (ms ++ ms') := by
  induction h with
  | nil => exact h'
  | cons hline hargs _ ih => exact .cons hline hargs ih
  | loop hloop _ ih =>
    rw [cons_append, append_assoc, cons_append, append_assoc]
    exact .loop hloop ih
  | label hjoins hargs _ ih => exact .label hjoins hargs ih

end Rewritten

def assembled (setup : Setup) (lines : List SourceLine) : Assembly := ((assembleLines lines).run (.new setup)).2

/-- The names of the exported symbols with their kinds and values. -/
def SymbolTable.exportedValues (t : SymbolTable) : List (String × SymbolKind × Option Value) :=
  t.exported.entries.map fun x => (x.1, x.2.kind, x.2.value)

theorem SymbolTable.Alike.new (explicitLocals : Bool) :
    (SymbolTable.new explicitLocals).Alike K (fun _ => none) none (SymbolTable.new explicitLocals) where
  modules id := by
    cases id with
    | zero => exact .some ⟨rfl, rfl, rfl, .empty, .empty, .empty⟩
    | succ id => exact .none
  scopes := nofun
  passes := nofun
  injective := nofun
  smaller := nofun
  smaller' := nofun
  active := .outside .nil
  current := rfl
  used := rfl
  explicitLocals := rfl

theorem Assembly.Alike.new {setup : Setup} (hnames : setup.names = K.names) (hold : K.old = #[]) :
    (new setup).Alike K (fun _ => none) none False (new setup) where
  names := hnames
  setup := rfl
  segments := rfl
  symbols := .new _
  pending := .nil
  reports _ := ⟨[], [], by rw [hold]; rfl, by rw [hold]; rfl, .nil⟩
  random := rfl
  readings := rfl
  model := rfl
  entry := rfl
  exportEntry := rfl
  placed _ := rfl
  trace := rfl
  hanging := .none
  macroDepth := rfl
  opened := rfl
  overrun := rfl
  held := held_none
  pos _ := rfl
  origin := False.elim
  file := False.elim

theorem SymbolTable.Alike.exportedValues {t u : SymbolTable} (h : t.Alike K π none u) :
    u.exportedValues = t.exportedValues :=
  SourceLine.forall₂_map_eq_iff.1
    (Forall₂.imp (fun _ _ hxy => by rw [hxy.1, hxy.2.kind, hxy.2.value]) h.exported)

theorem Assembly.Alike.diagnostics {line : Prop} (h : a.Alike K π none line b) (hloud : ¬K.Quiet) (hold : K.old = #[]) :
    Forall₂ (Diagnostic.Alike K) a.diagnostics.toList b.diagnostics.toList := by
  obtain ⟨new, new', ha, hb, hnew⟩ := h.reports hloud
  rw [hold] at ha hb
  rw [ha, hb]
  exact hnew

theorem resolveAll_reported (a : Assembly) : Reported a a.flushLabel.resolveAll :=
  (flushLabel_calm a).moves.reported.trans
    ((reported_of_resolution (sweeps_resolution none a.flushLabel.pending.size a.flushLabel)).trans
      ⟨_, diagnostics_resolveAll _⟩)

theorem Rewritten.assembled (h : Rewritten K ls ms) {setup : Setup} (hnames : setup.names = K.names)
    (hold : K.old = #[]) (hgood : ∀ x ∈ (assembled setup ls).diagnostics, ¬K.bad x)
    (hquiet : K.Quiet → (assembled setup ms).diagnostics = #[])
    (hfirst : ∀ t c, Walks (.lines ls) (.new setup) t c → ∀ visit ∈ t.visits, K.hung visit.1 → visit.2.hanging = none) :
    ∃ π, (assembled setup ls).Alike K π none False (assembled setup ms) := by
  have hnew : Reachable (.new setup) := ⟨setup, .refl⟩
  obtain ⟨t, hx⟩ := walkProgram_walks setup ls
  obtain ⟨u, hy⟩ := walkProgram_walks setup ms
  have hquiet' (hK : K.Quiet) : ((walkProgram ms).run (.new setup)).2.diagnostics = #[] :=
    Array.eq_empty_iff_forall_not_mem.2
      ((resolveAll_reported _).before (Array.eq_empty_iff_forall_not_mem.1 (hquiet hK)))
  obtain ⟨π, -, hwalked⟩ := hx.alike hy (.lines h (.new hnames hold)) hnew hnew ((resolveAll_reported _).before hgood)
    hquiet' (hfirst t _ hx)
  exact ⟨π, hwalked.flushLabel.resolveAll⟩

end SpectrumAsm
