/-
Which declaration a reference is bound to.

If all names of an operand have values on its line, these are encoded, and later declarations do not matter.
Otherwise the operand is bound where a scope ends that it stands in, the innermost one first, as soon as all its
names have values there.
-/
import SpectrumAsm.Proofs.Binding
import SpectrumAsm.Proofs.Operands
import SpectrumAsm.Proofs.Termination

namespace SpectrumAsm

open SymbolTable

variable {a b c d : Assembly} {depth id : Nat} {call : Call}

/-! ## Walks line by line -/

theorem walked_history (setup : Setup) (lines : List SourceLine) :
    ∃ es, History (.new setup) es ((walkProgram lines).run (.new setup)).2.flushLabel := by
  obtain ⟨es, hes, -⟩ := ((walkProgram_follows lines (.new setup)).trans
    (.ofCalm (flushLabel_calm _))).history (Arises.new setup).reachable
  exact ⟨es, hes⟩

theorem walkProgram_run (h : a.setup.options.maxMacroDepth = depth + 1) (lines : List SourceLine) :
    (walkProgram lines).run a = (walkLines ((some depth).map walkDepth) lines.length lines).run a := by
  show (walkDepth a.setup.options.maxMacroDepth lines).run a = _
  rw [h]
  rfl

theorem bound_history (a : Assembly) (line : SourceLine) :
    History a [] ({ a.moveTo line.pos with opened := none }.bindLineLabel line) := by
  have hmoved : History a [] (a.moveTo line.pos) := (Calm.note (.moveTo a line.pos) rfl).history
  have hclosed : History (a.moveTo line.pos) [] { a.moveTo line.pos with opened := none } :=
    .idle (.closeInstance _) (.refl _) rfl
  exact (hmoved.trans hclosed).trans (bindLineLabel_calm _ line).history

theorem atOperation_history (a : Assembly) (line : SourceLine) : History a [] (a.atOperation line) :=
  (bound_history a line).trans (Calm.note (.recordLine _ line.pos) rfl).history

/-! ## The ends of scopes -/

def SymbolTable.kind? (t : SymbolTable) (id : Nat) : Option ScopeKind := t.scopes[id]?.map (·.kind)

theorem SymbolTable.kind?_of_frame {t u : SymbolTable}
    (h : u.scopes[id]?.map Scope.frame = t.scopes[id]?.map Scope.frame) : u.kind? id = t.kind? id := by
  simpa [SymbolTable.kind?, Scope.frame, Function.comp_def] using congrArg (Option.map (·.1)) h

theorem History.kind? {kind : ScopeKind} {pass : Int64} (h : History (a.enterScope kind pass) [] b) :
    b.symbols.kind? a.symbols.nextScope = some kind := by
  have hframe : b.symbols.scopes[a.symbols.nextScope]?.map Scope.frame =
      (a.enterScope kind pass).symbols.scopes[a.symbols.nextScope]?.map Scope.frame := by
    rw [← Array.getElem?_map, ← Array.getElem?_map, (h.still rfl).1.frames]
  rw [kind?_of_frame hframe, SymbolTable.kind?, scopes_entered]
  rfl

/-- Scope `id`, open in `b`, comes to its end on the way to `c`: once its body has been walked its patches are
resolved, for the first time, and it closes. The scope of the variable of a loop only closes. -/
def Assembly.EndsOn (b : Assembly) (id : Nat) (kind : ScopeKind) (after : List Event) (c : Assembly) : Prop :=
  ∃ e between rest, after = between ++ ((if kind = .loop then [] else [.ends id]) ++ .closes id :: rest) ∧
    .ends id ∉ between ∧ History b between e ∧ e.symbols.top? = some id ∧
    History (if kind = .loop then e else e.resolveScope id) (.closes id :: rest) c

/-- From `a` to `x` and from `y` on to `b`, where the scopes that are open in `x` and not in `a` come to their
ends. -/
def Surrounds (a x y b : Assembly) : Prop := ∃ before after, History a before x ∧ History y after b ∧
  Inner a.symbols.nextScope after ∧ ∀ id ∈ x.symbols.active, id ∉ a.symbols.active →
    ∀ kind, x.symbols.kind? id = some kind → y.EndsOn id kind after b

namespace Surrounds

variable {x y : Assembly}

theorem ofFollows (h : Follows a b) (h' : Follows c d) (hle : a.symbols.nextScope ≤ c.symbols.nextScope)
    (ha : Reachable a) (hc : Reachable c) : Surrounds a b c d := by
  obtain ⟨_, hbefore, -⟩ := h.history ha
  obtain ⟨_, hafter, hinner⟩ := h'.history hc
  exact ⟨_, _, hbefore, hafter, hinner.mono hle, fun id hid hnot => absurd (h.level.active ▸ hid) hnot⟩

theorem arises (h : Surrounds a b c d) (ha : Arises a) (horder : a.Orderly) : Arises b ∧ b.Orderly := by
  obtain ⟨_, _, hbefore, -⟩ := h
  exact ⟨hbefore.arises ha, hbefore.orderly ha horder⟩

/-- Scopes opened on the inside end there; those around it end behind it. -/
theorem trans (h : Surrounds a b c d) (h' : Surrounds b x y c) (ha : Arises a) (horder : a.Orderly) :
    Surrounds a x y d := by
  obtain ⟨hb, horderb⟩ := h.arises ha horder
  obtain ⟨before, after, hbefore, hafter, hinner, hends⟩ := h
  obtain ⟨before', after', hbefore', hafter', hinner', hends'⟩ := h'
  have hle := ((Sealed.refl horder.nested.active).history hbefore ha horder).scopes
  refine ⟨_, _, hbefore.trans hbefore', hafter'.trans hafter, (hinner'.mono hle).append hinner,
    fun id hid hnot kind hkind => ?_⟩
  by_cases hopen : id ∈ b.symbols.active
  · have hlt := horderb.nested.active id hopen
    have hframe := ((Sealed.refl horderb.nested.active).history hbefore' hb horderb).frames id hlt
    obtain ⟨e, between, rest, rfl, hfirst, hbetween, hrest⟩ := hends id hopen hnot kind (kind?_of_frame hframe ▸ hkind)
    refine ⟨e, after' ++ between, rest, (List.append_assoc _ _ _).symm, ?_, hafter'.trans hbetween, hrest⟩
    rw [List.mem_append, not_or]
    exact ⟨(hinner' id hlt).1, hfirst⟩
  · obtain ⟨e, between, rest, rfl, hfirst, hbetween, htop, hrest⟩ := hends' id hid hopen kind hkind
    refine ⟨e, between, rest ++ after, by simp, hfirst, hbetween, htop, ?_⟩
    exact hrest.trans hafter

theorem scope {e : Assembly} {kind : ScopeKind} {before rest : List Event} (hbefore : History a before b)
    (hactive : b.symbols.active = a.symbols.nextScope :: a.symbols.active)
    (hkind : b.symbols.kind? a.symbols.nextScope = some kind) (hbc : Follows b c) (hlabel : History c [] e)
    (hclosed : History (if kind = .loop then e else e.resolveScope a.symbols.nextScope)
      (.closes a.symbols.nextScope :: rest) d) (hrest : Inner a.symbols.nextScope rest) : Surrounds a b c d := by
  have htop : e.symbols.top? = some a.symbols.nextScope := by
    rw [top?, (hlabel.still rfl).1.active, hbc.level.active, hactive]
    rfl
  have hends : History e (if kind = .loop then [] else [.ends a.symbols.nextScope])
      (if kind = .loop then e else e.resolveScope a.symbols.nextScope) := by
    split
    · exact .refl e
    · exact .single (.ends htop)
  refine ⟨before, _, hbefore, hlabel.trans (hends.trans hclosed), ?_, fun id hid hnot kind' hkind' => ?_⟩
  · intro id hid
    obtain ⟨hends, hcloses⟩ := hrest id hid
    split <;> simp [hends, hcloses, Nat.ne_of_lt hid]
  · rw [hactive] at hid
    obtain rfl := (List.mem_cons.1 hid).resolve_right hnot
    cases hkind.symm.trans hkind'
    exact ⟨e, [], rest, rfl, List.not_mem_nil, hlabel, htop, hclosed⟩

end Surrounds

/-- Around a call its scope, if it has one, comes to an end. -/
theorem Around.surrounds (h : Around call a b c d) (hvar : a.HasVariable call.counted?)
    (hbc : Follows b c) : Surrounds a b c d := by
  have hsame {b : Assembly} (hactive : b.symbols.active = a.symbols.active) {id : Nat} (hid : id ∈ b.symbols.active)
      (hnot : id ∉ a.symbols.active) : False := hnot (hactive ▸ hid)
  have hnone (n : Nat) : Inner n [] := fun _ _ => by simp
  cases h with
  | even hin hout =>
    exact ⟨_, _, hin.history, hout.history, hnone _, fun id hid hnot => (hsame hin.active hid hnot).elim⟩
  | @scope e f kind pass hkind hin hlabel hend hout =>
    obtain ⟨-, hopened⟩ := hin.tame fun x hx => (hvar x hx).enterScope kind pass
    refine .scope ((History.single (.opens a kind pass)).trans hopened) hin.active hopened.kind? hbc hlabel.history ?_
      (hnone _)
    have htop : f.symbols.top? = some a.symbols.nextScope := by
      rw [top?, hend.active, (Even.settling.resolveScope e _).active, hlabel.active, hbc.level.active,
        hin.active]
      rfl
    rw [if_neg hkind]
    exact hend.history.trans ((History.single (.closes htop)).trans hout.history)
  | loop hin hout =>
    have htop : c.symbols.top? = some a.symbols.nextScope := by
      rw [top?, hbc.level.active, hin.active]
      rfl
    subst hout
    exact .scope ((History.single (.opens a .loop 0)).trans hin.history) hin.active hin.history.kind? hbc (.refl c)
      (.single (.closes htop)) (hnone _)
  | @module name t e henter hin hlabel hout =>
    subst hin hout
    refine ⟨_, _, .single (.enters henter), hlabel.history.trans (.single (.leaves e)), ?_, fun id hid hnot =>
      (hsame (b := { a with symbols := t }) (active_enterModule henter) hid hnot).elim⟩
    exact .single fun _ _ => by simp
  | @expansion m pos _ hin hout =>
    subst hin hout
    have hdeeper : History a [.deepens (a.macroDepth + 1)] { a with macroDepth := a.macroDepth + 1 } :=
      .single (.deepens a _)
    have hopen := History.single (.opens { a with macroDepth := a.macroDepth + 1 } .expansion 0)
    have hkind := (History.refl (Assembly.enterScope { a with macroDepth := a.macroDepth + 1 } .expansion 0)).kind?
    rw [enterScope_zero] at hopen hkind
    have hlabel := (bindEndLabel_calm c m.endLabel pos).history
    have htop : ((c.bindEndLabel m.endLabel pos).resolveScope a.symbols.nextScope).symbols.top? =
        some a.symbols.nextScope := by
      rw [top?, (Even.settling.resolveScope _ _).active, (hlabel.still rfl).1.active, hbc.level.active]
      rfl
    exact .scope (hdeeper.trans hopen) rfl hkind hbc hlabel
      ((History.single (.closes htop)).trans (.single (.deepens _ _))) (.single fun _ _ => by simp)

/-- Each line that is walked has a history in front of it and one behind it, in which the scopes it stands in come to
their ends. -/
theorem Walks.surrounds {t : Tally} (h : Walks call a t b)
    (hvar : a.HasVariable call.counted?) (ha : Arises a) (horder : a.Orderly) :
    ∀ visit ∈ t.visits, visit.2.invoked? visit.1 = none →
      Surrounds a visit.2 ((walkSingle none visit.1).run visit.2).2 b := by
  induction h with
  | @done call a b h =>
    intro visit hvisit hnone
    rcases call.own_cases a with hown | ⟨line, rfl, hown⟩ <;> rw [hown] at hvisit
    · cases hvisit
    · obtain rfl := List.mem_singleton.1 hvisit
      cases h.symm.trans (Call.next_line hnone)
      exact ⟨[], [], .refl a, .refl _, fun _ _ => by simp, fun id hid hnot => absurd hid hnot⟩
  | @call call inner a b c d resume t u h hinner hrest ihinner ihrest =>
    obtain ⟨hvar', s, hs, hback⟩ := Call.next_follows h hvar
    have hbc := hinner.follows hvar'
    obtain ⟨haround, hfollows, hvar''⟩ := hback c hbc
    have hlater := hrest.follows hvar''
    have hreach := ha.reachable.moves (hfollows.moves ha.reachable)
    have hafter : Surrounds a s (resume c).2 d :=
      .ofFollows hs.plain hlater hfollows.level.scopes ha.reachable hreach
    have hwhole := hafter.trans (haround.surrounds (hvar.level hs.plain.level) hbc) ha horder
    intro visit hvisit hnone
    rcases List.mem_append.1 hvisit with hvisit | hvisit
    · rw [call.visits_around] at hvisit
      rcases List.mem_append.1 hvisit with hvisit | hvisit
      · rcases call.around_cases a with haround | ⟨line, rfl, haround⟩ <;> rw [haround] at hvisit
        · cases hvisit
        · obtain rfl := List.mem_singleton.1 hvisit
          cases h.symm.trans (Call.next_line hnone)
      · obtain ⟨hb, horderb⟩ := hwhole.arises ha horder
        exact hwhole.trans (ihinner hvar' hb horderb visit hvisit hnone) ha horder
    · have hbefore : Surrounds a (resume c).2 d d := .ofFollows hfollows (.refl d)
        (Nat.le_trans hfollows.level.scopes hlater.level.scopes) ha.reachable
        (hreach.moves (hlater.moves hreach))
      obtain ⟨hb, horderb⟩ := hbefore.arises ha horder
      exact hbefore.trans (ihrest hvar'' hb horderb visit hvisit hnone) ha horder

/-! ## Operands -/

theorem History.found {between : List Event} (h : History c.closeScope between d)
    (hc : Arises c) (horder : c.Orderly) (htop : c.symbols.top? = some id) {p : Patch}
    (hp : p ∈ c.pending) (hinside : c.symbols.encloses p.scope id = true) {ref : SymbolRef}
    {s : Symbol} (hr : ref.rooted = false) (hs : c.symbols.lookupWithin id p.scope ref.joined = some s) :
    ∃ s', d.symbols.lookup ref p.scope p.module = some s' ∧ Gains (some s) (some s') := by
  have hgains := h.closed hc horder htop hp hinside ref.joined
  rw [hs] at hgains
  obtain ⟨s', hs'⟩ : ∃ s', d.symbols.lookupWithin id p.scope ref.joined = some s' := by
    rcases hgains.found with ⟨hnone, -⟩ | ⟨-, hsome⟩
    · cases hnone
    · exact Option.isSome_iff_exists.1 hsome
  rw [hs'] at hgains
  exact ⟨s', lookup_of_within hr hs' p.module, hgains⟩

/-- How references are bound on the way from `start` to the end of the walk at `walked`, and in the end. -/
structure BindsOperands (start walked : Assembly) (visits : List (SourceLine × Assembly)) : Prop where
  /-- A line that is walked stands on the way. Behind it the scopes around it come to their ends. -/
  visited : ∀ visit ∈ visits, visit.2.invoked? visit.1 = none →
    let b := ((walkSingle none visit.1).run visit.2).2
    ∃ before after, History start before visit.2 ∧ History b after walked ∧
      ∀ id kind, visit.2.symbols.encloses visit.2.place.scope id = true → visit.2.symbols.kind? id = some kind →
        b.EndsOn id kind after walked
  /-- A line with an operation or data is reported, or its operands are laid one behind the other. -/
  code {line : SourceLine} {s : Stmt} {x : Step Unit} (walk : Option LineWalker) (a : Assembly) :
    line.stmt = some s → s.code? = some x →
    ∃ c, History a [] c ∧ ((∃ fault, ((walkSingle walk line).run a).2 = c.report fault) ∨
      s.AllLaid c ((walkSingle walk line).run a).2)
  /-- An operand that has a value on its line is encoded with the symbols of its line, and stays so. -/
  known {before after : List Event} {a b : Assembly} {cell : Cell} {kind : PatchKind} {e : Expr} {k i : Nat} :
    History start before a → a.Lays cell k i b → History b after walked →
    cell.hole? = some (kind, e) → ¬ e.Waits (a.symbols.env a.place) →
    ∃ l l' bytes, Asked a l ∧ (fillCell cell).run.run l = (.ok bytes, l') ∧
      ∀ j < bytes.length, (∀ x ∈ rewritten after, ¬ x.Covers k (i + j)) → walked.resolveAll.byteAt k (i + j) = bytes[j]?
  /-- An operand that has to wait is bound at the end of a scope around it, or of the program. -/
  waiting {before after : List Event} {a b : Assembly} {cell : Cell} {kind : PatchKind} {e : Expr} {k i : Nat} :
    History start before a → a.Lays cell k i b → History b after walked →
    cell.hole? = some (kind, e) → e.Waits (a.symbols.env a.place) →
    ∃ p ∈ b.pending, p.expr = e ∧ p.place = a.place ∧ p.extent = ⟨k, i + kind.lead, i + kind.lead + kind.span⟩ ∧
      (p.Spared (rewritten after) → p.Fate b after walked)
  /-- It goes on waiting at the end of a scope only if one of its names has no value there. -/
  unready {before between later after : List Event} {a c d : Assembly} {id : Nat} {p : Patch} :
    History start before a → p ∈ a.pending → 0 < p.kind.span →
    History a between c → c.symbols.top? = some id → c.symbols.encloses p.scope id = true →
    History (c.resolveScope id) later d → p.Spared (rewritten (between ++ later)) → p ∈ d.pending →
    History d after walked → p.unresolved (c.resolveScope id) ≠ []
  /-- Meanwhile the names that were found inside a scope when it closed keep their meaning. -/
  closed {before between after : List Event} {c d : Assembly} {id : Nat} {p : Patch} {ref : SymbolRef}
    {s : Symbol} :
    History start before c → c.symbols.top? = some id → p ∈ c.pending →
    c.symbols.encloses p.scope id = true → History c.closeScope between d → History d after walked →
    ref.rooted = false → c.symbols.lookupWithin id p.scope ref.joined = some s →
    ∃ s', d.symbols.lookup ref p.scope p.module = some s' ∧ Gains (some s) (some s')

/-- Every program binds its operands as early as possible: on their lines, or else where the scopes around
them end. The walk through a program is a history of turns, scopes and modules; what is said of its states
holds of all histories that lead there. -/
theorem operands_bound_early (setup : Setup) (lines : List SourceLine)
    (ho : ((assembleLines lines).run (.new setup)).2.overrun = false) :
    let walked := ((walkProgram lines).run (.new setup)).2.flushLabel
    ((assembleLines lines).run (.new setup)).2 = walked.resolveAll ∧ (∃ es, History (.new setup) es walked) ∧
      ∃ t, Walks (.lines lines) (.new setup) t ((walkProgram lines).run (.new setup)).2 ∧
        BindsOperands (.new setup) walked t.visits := by
  intro walked
  have hend : ((assembleLines lines).run (.new setup)).2 = walked.resolveAll := rfl
  rw [hend] at ho
  have hwalked : walked.overrun = false := (resolveAll_course walked).overrun ho
  have hstart := Arises.new setup
  have horder {before : List Event} {a : Assembly} (hbefore : History (.new setup) before a) : a.Orderly :=
    hbefore.orderly hstart (.new setup)
  obtain ⟨t, ht⟩ := walkProgram_walks setup lines
  refine ⟨hend, walked_history setup lines, t, ht, ?_⟩
  constructor
  case visited =>
    intro visit hvisit hnone b
    obtain ⟨before, after, hbefore, hafter, -, hends⟩ :=
      ht.surrounds (.none _) hstart (.new setup) visit hvisit hnone
    have hflush := (flushLabel_calm ((walkProgram lines).run (.new setup)).2).history
    refine ⟨before, _, hbefore, hafter.trans hflush, fun id kind hid hkind => ?_⟩
    have hopen : id ∈ visit.2.symbols.active := (horder hbefore).nested.stack ▸ List.contains_iff_mem.1 hid
    obtain ⟨e, between, rest, hevents, hfirst, hbetween, htop, hrest⟩ := hends id hopen List.not_mem_nil kind hkind
    refine ⟨e, between, rest, by rw [List.append_nil, hevents], hfirst, hbetween, htop, ?_⟩
    have hall := hrest.trans hflush
    rwa [List.append_nil] at hall
  case code =>
    intro line s x walk a hs hx
    exact walkSingle_laid hs hx walk a
  case known =>
    intro before after a b cell kind e k i hbefore hlays hafter hcell hknown
    have ha := hbefore.arises hstart
    obtain ⟨⟨_, hline⟩, ⟨-, l, l', bytes, hasked, hfill, hbytes⟩ | ⟨hwaits, -⟩⟩ :=
      hlays.cases hcell ha (hafter.overrun hwalked)
    · refine ⟨l, l', bytes, hasked, hfill, fun j hj hx => ?_⟩
      obtain ⟨hdone, hbyte⟩ := hbytes j hj
      have hcourse := hafter.course.trans (resolveAll_course walked)
      rw [List.append_nil] at hcourse
      rw [(hcourse.settled (hline.arises ha) ho hdone hx).2, hbyte]
    · exact absurd hwaits hknown
  case waiting =>
    intro before after a b cell kind e k i hbefore hlays hafter hcell hwaits
    have ha := hbefore.arises hstart
    obtain ⟨⟨_, hline⟩, ⟨hknown, -⟩ | ⟨-, p, hp, hexpr, hplace, hspan, hextent⟩⟩ :=
      hlays.cases hcell ha (hafter.overrun hwalked)
    · exact absurd hwaits hknown
    · have hpos : 0 < p.kind.span := by
        rw [hspan]
        cases cell <;> cases hcell <;> decide
      exact ⟨p, hp, hexpr, hplace, hextent,
        hafter.fate (hline.arises ha) (hline.orderly ha (horder hbefore)) ho hp hpos⟩
  case unready =>
    intro before between later after a c d id p hbefore hp hpos hbetween _ hinside hlater hx hd hafter
    exact hbetween.unready hlater (hbefore.arises hstart) (hafter.overrun hwalked) hp hpos hx hinside hd
  case closed =>
    intro before between after c d id p ref s hbefore htop hp hinside hbetween hafter hr hs
    exact hbetween.found (hbefore.arises hstart) (horder hbefore) htop hp hinside hr hs

/-! ## A name declared behind its use -/

def lateName : Expr := .symbol ⟨["N"], false⟩

def lateLine : SourceLine := ⟨⟨0, 1⟩, none, some (.op .ld [.reg8 .a, .expr lateName]), none⟩

/-- The body of a procedure: `LD A,N`, and then `N` is declared as 2. -/
def lateBody : List SourceLine := [lateLine, ⟨⟨0, 2⟩, some "n", some (.pragma (.equ (.int 2))), none⟩]

def procLine : SourceLine := ⟨⟨0, 0⟩, none, some (.statement .proc), none⟩

def endLine : SourceLine := ⟨⟨0, 3⟩, none, some (.statement .endProc), none⟩

def lateProc (before after : List SourceLine) : List SourceLine := before ++ procLine :: lateBody ++ endLine :: after

def outerName : SourceLine := ⟨⟨0, 4⟩, some "n", some (.pragma (.equ (.int 1))), none⟩

@[irreducible] def insideProc : Assembly :=
  ({ (Assembly.new {}).moveTo procLine.pos with opened := none }.bindLineLabel procLine).openScope .proc

theorem visits_lateLine {t : Tally} (h : Walks (.lines (lateProc [] [outerName])) (.new {}) t b) :
    (lateLine, insideProc.moveTo lateLine.pos) ∈ t.visits := by
  have hblock : (Call.lines (lateProc [] [outerName])).next (.new {}) = .call (.block procLine .proc lateBody endLine)
      { (Assembly.new {}).moveTo procLine.pos with opened := none } fun b => (.lines [outerName], b) := rfl
  obtain ⟨_, _, _, hblock, -, rfl⟩ := h.of_call hblock
  have hproc : (Call.block procLine .proc lateBody endLine).next
      { (Assembly.new {}).moveTo procLine.pos with opened := none } = .within (.lines lateBody) insideProc fun b =>
        ((b.bindEndLabel endLine.label endLine.pos).resolveScope 0).closeScope := by
    unfold insideProc
    rfl
  obtain ⟨_, _, _, hbody, -, rfl⟩ := hblock.of_call hproc
  have hgoes : insideProc.isInterrupted = false := by decide +kernel
  obtain ⟨_, _, _, hline, -, rfl⟩ := hbody.of_call (Call.next_single hgoes rfl)
  obtain ⟨rfl, -⟩ := hline.of_done (Call.next_line rfl)
  exact List.mem_append_left _ (List.mem_append_left _ (List.mem_append_left _ List.mem_cons_self))

/-- With `N` declared behind the operand in the procedure, and another `N` only behind the procedure, the
operand waits on its line and gets the value of the inner one, where the procedure ends. -/
theorem operands_bound_early_local :
    let walked := ((walkProgram (lateProc [] [outerName])).run (.new {})).2.flushLabel
    walked.resolveAll.diagnostics = #[] ∧ walked.resolveAll.segments.map (·.bytes) = #[#[0x3E, 2]] ∧
    ∃ before after a b p, History (.new {}) before a ∧ a.Lays (.byteOf lateName) 0 1 b ∧
      lateName.Waits (a.symbols.env a.place) ∧ History b after walked ∧ b.EndsOn 0 .proc after walked ∧
      p ∈ b.pending ∧ p.expr = lateName ∧ p.extent = ⟨0, 1, 2⟩ := by
  refine ⟨Array.isEmpty_iff.1 (by decide +kernel), by decide +kernel, ?_⟩
  obtain ⟨-, -, t, ht, hbinds⟩ := operands_bound_early {} (lateProc [] [outerName]) (by decide +kernel)
  obtain ⟨before, after, hbefore, hafter, hends⟩ := hbinds.visited _ (visits_lateLine ht) rfl
  have hends := hends 0 .proc (by decide +kernel) (by decide +kernel)
  obtain ⟨a, ha⟩ : ∃ a, a = insideProc.atOperation lateLine := ⟨_, rfl⟩
  obtain ⟨hopened, hfirst, hempty, hok⟩ : a.opened.isNone = true ∧ a.lastSegment = 0 ∧ a.segmentSize a.lastSegment = 0 ∧
      ((emitOperation .ld [.reg8 .a, .expr lateName]).run.run a).1.toBool = true := by
    rw [ha]
    decide +kernel
  have hwaits : lateName.Waits (a.symbols.env a.place) := by
    refine ⟨rfl, ?_⟩
    rw [ha]
    decide +kernel
  rcases hemit : (emitOperation .ld [.reg8 .a, .expr lateName]).run.run a with ⟨fault | _, b⟩ <;>
    rw [hemit] at hok
  · cases hok
  have hlays : a.Lays (.byteOf lateName) 0 1 b := by
    have hcells : Instruction.encode a.effectiveModel.hasNextOps .ld [.reg8 .a, .expr lateName] =
        .ok (.cells ([.byte 0x3E] ++ .byteOf lateName :: [])) := by
      cases a.effectiveModel.hasNextOps <;> rfl
    cases emitOperation_inv hemit with
    | cells hi h =>
      cases hcells.symm.trans hi
      have hlays := Assembly.Lays.ofEmitCells (Option.isNone_iff_eq_none.1 hopened) h
      rwa [hempty, hfirst] at hlays
    | choose hi => cases hcells.symm.trans hi
  have hwalked : ((walkSingle none lateLine).run (insideProc.moveTo lateLine.pos)).2 = b := by
    rw [walkSingle_operation rfl rfl, run_reporting, ← ha, hemit]
  rw [hwalked] at hafter hends
  have hhere : History (.new {}) _ a :=
    hbefore.trans (ha ▸ atOperation_history (insideProc.moveTo lateLine.pos) lateLine)
  obtain ⟨p, hp, hexpr, -, hextent, -⟩ := hbinds.waiting hhere hlays hafter rfl hwaits
  exact ⟨_, _, a, b, p, hhere, hlays, hwaits, hafter, hends, hp, hexpr, hextent⟩

/-- Once the body of the procedure has been walked, its own `N` is what a reference inside means. But with
another `N` in front of the procedure the operand has the value of that one, and nothing is reported. -/
theorem outer_name_bound_first :
    let final := ((assembleLines (lateProc [outerName] [])).run (.new {})).2
    let outside := ((walkDepth 0 [outerName]).run (.new {})).2
    let walked := ((walkDepth 0 lateBody).run (outside.enterScope .proc 0)).2
    final.diagnostics = #[] ∧ final.segments.map (·.bytes) = #[#[0x3E, 1]] ∧
      ((walked.symbols.lookup ⟨["N"], false⟩ (some outside.symbols.nextScope) 0).bind (·.value)).bind
        (·.integer?) = some 2 :=
  ⟨Array.isEmpty_iff.1 (by decide +kernel), by decide +kernel, by decide +kernel⟩

end SpectrumAsm
