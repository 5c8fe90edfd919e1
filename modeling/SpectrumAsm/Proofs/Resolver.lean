/-
The end of an assembly: every waiting patch is settled or reported, once.

Sweeps go on until none of the patches left can be settled. No value is ever taken away, so an expression that
was computed has all of its symbols at the end, and one that is left over lacks some. Each report names
exactly the symbols without a value.
-/
import SpectrumAsm.Proofs.Actions
import SpectrumAsm.Proofs.Assigning

namespace SpectrumAsm

open List Assembly

variable {a b : Assembly} {p : Patch}

/-! ## Queued expressions -/

/-- No expression in the queue has a macro parameter, and only constants have a target. -/
def Assembly.QueuePlain (a : Assembly) : Prop := ∀ p ∈ a.pending, p.expr.params = [] ∧ (p.kind ≠ .equ → p.target = none)

namespace Assembly.QueuePlain

section
variable (h : a.QueuePlain)
include h

theorem same (hp : b.pending = a.pending) : b.QueuePlain := by
  intro p hm
  exact h p (hp ▸ hm)

theorem taken {kept rest : List Patch} (hq : a.pending.toList = kept ++ p :: rest)
    (hp : b.pending = (kept ++ rest).toArray) : b.QueuePlain := by
  intro q hm
  rw [hp] at hm
  exact h q (mem_pending_of_taken hq hm)

theorem move (hm : Move a b) : b.QueuePlain := fun p hp => by
  rcases hm.queued hp with hp | ⟨he, ht, -⟩
  · exact h p hp
  · exact ⟨he.1, ht⟩

end

end Assembly.QueuePlain

theorem Reachable.queuePlain (h : Reachable a) : a.QueuePlain :=
  h.invariant (fun _ _ hp => absurd hp (Array.not_mem_empty _)) fun _ _ hm h => h.move hm

/-! ## What settling a patch leaves behind -/

def Setup.diagnostic (setup : Setup) (fault : Fault) (pos : Position) : Diagnostic where
  fault := fault
  file := SourceTree.fileName setup.names pos.file
  line := pos.line

/-- Every symbol that has a value has one afterwards. -/
def Learned (a b : Assembly) : Prop := ∀ place ref, ((a.symbols.env place).symbol ref).isSome = true →
    ((b.symbols.env place).symbol ref).isSome = true

theorem Learned.ofEnv (h : ∀ place, b.symbols.env place = a.symbols.env place) : Learned a b := by
  intro place ref hs
  rw [h]
  exact hs

instance : IsPreorder Assembly Learned where
  refl _ := .ofEnv fun _ => rfl
  trans _ _ _ h h' := fun place ref hs => h' place ref (h place ref hs)

theorem Learned.settling : Settling Learned where
  asked h := .ofEnv h.env
  reportAt _ _ _ := .ofEnv fun _ => rfl
  assign a slot key v := fun place _ => SymbolTable.symbol_isSome_assign a.symbols slot key v place
  setEntries _ _ _ := .ofEnv fun _ => rfl
  patchBytes _ _ _ _ := .ofEnv fun _ => rfl
  setPending _ _ := .ofEnv fun _ => rfl

theorem applyPatch_fault {v : Value} {fault : Fault} (h : a.applyPatch p v = .error fault) :
    fault = .numericExpected ∨ ∃ distance, fault = .relativeJump distance := by
  have hword {fault : Fault} (hw : v.lowWord = .error fault) : fault = .numericExpected := by
    unfold Value.lowWord at hw
    split at hw <;> cases hw
    rfl
  unfold applyPatch at h
  cases hw : v.lowWord with
  | error fault' =>
    rw [hw] at h
    refine .inl ?_
    cases hk : p.kind with
    | equ => rw [hk] at h; dsimp only at h; split at h <;> cases h
    | _ => rw [hk] at h; cases h; exact hword hw
  | ok w =>
    rw [hw] at h
    cases hk : p.kind with
    | equ => rw [hk] at h; dsimp only at h; split at h <;> cases h
    | branch =>
      rw [hk] at h
      simp only [bind, Except.bind] at h
      split at h
      · cases h
      · next s _ =>
        unfold branchByte at h
        split at h
        · next hb => split at hb <;> cases hb; cases h; exact .inr ⟨_, rfl⟩
        · cases h
    | _ => rw [hk] at h; cases h

namespace Settles

variable {o : Settlement}

theorem diagnostics (h : Settles a p o b) : b.diagnostics =
    a.diagnostics ++ (o.fault?.map (a.setup.diagnostic · p.pos)).toArray := by
  cases h with
  | applied he ha =>
    rw [← (Asked.ofEvalAt he).diagnostics]
    rcases applyPatch_cases ha with ⟨_, _, -, -, rfl⟩ | ⟨_, _, rfl, -⟩ | ⟨_, _, rfl, -⟩ <;>
      exact Array.append_empty.symm
  | @refused c _ fault he _ | @failed c fault he =>
    have hreport : (c.reportAt fault p.pos).diagnostics = c.diagnostics.push (c.setup.diagnostic fault p.pos) := rfl
    rw [hreport, (Asked.ofEvalAt he).diagnostics, (Noted.ofAsked (.ofEvalAt he)).setup]
    rfl

theorem not_waits (h : Settles a p o b) : ¬ p.Waits a := by
  rcases tryPatch_cases a p with ⟨-, ht⟩ | ⟨hw, -⟩
  · rw [h.tryPatch] at ht
    cases ht
  · exact hw

theorem fault_code (h : Settles a p o b) {fault : Fault} (hf : o.fault? = some fault) : fault.code ≠ "Z0201" := by
  cases h with
  | applied _ _ => cases hf
  | refused _ ha =>
    cases hf
    rcases applyPatch_fault ha with rfl | ⟨distance, rfl⟩ <;> simp [Fault.code, Fault.described]
  | failed he =>
    cases hf
    obtain ⟨cause, rfl⟩ := evalAt_fault (congrArg Prod.fst he)
    cases cause <;> simp [Fault.ofExpr, Fault.code, Fault.described]

end Settles

/-! ## Diagnostics -/

/-- No diagnostic is taken back. -/
def Reported (a b : Assembly) : Prop := ∃ more, b.diagnostics = a.diagnostics ++ more

namespace Reported

variable {c : Assembly}

theorem ofEq (h : b.diagnostics = a.diagnostics) : Reported a b := ⟨#[], by simp [h]⟩

theorem trans (h : Reported a b) (h' : Reported b c) : Reported a c := by
  obtain ⟨more, hb⟩ := h
  obtain ⟨more', hc⟩ := h'
  exact ⟨more ++ more', by rw [hc, hb, Array.append_assoc]⟩

theorem size_le (h : Reported a b) : a.diagnostics.size ≤ b.diagnostics.size := by
  obtain ⟨more, hb⟩ := h
  rw [hb, Array.size_append]
  omega

theorem between (h : Reported a b) (h' : Reported b c) (hc : c.diagnostics = a.diagnostics) :
    b.diagnostics = a.diagnostics ∧ c.diagnostics = b.diagnostics := by
  obtain ⟨more, hb⟩ := h
  have hsize := h'.size_le
  rw [hc, hb, Array.size_append] at hsize
  have hmore : more = #[] := Array.size_eq_zero_iff.1 (by omega)
  rw [hmore, Array.append_empty] at hb
  exact ⟨hb, hc.trans hb.symm⟩

end Reported

theorem report_ne (a : Assembly) (fault : Fault) : (a.report fault).diagnostics ≠ a.diagnostics := by
  intro h
  have hsize := congrArg Array.size h
  simp [Assembly.report, reportAt] at hsize

theorem Move.kept (h : Move a b) : Reported a b ∧ b.setup = a.setup := by
  cases h with
  | note h => exact ⟨h.diagnostics, h.setup⟩
  | openSegment =>
    obtain ⟨_, ho⟩ := a.openSegment_eq
    exact ⟨.ofEq (by rw [ho]), by rw [ho]⟩
  | @emit code _ =>
    obtain ⟨_, _, he⟩ := a.emit_eq code
    exact ⟨.ofEq (by rw [he]), by rw [he]⟩
  | setOrigin _ start =>
    obtain ⟨_, ho⟩ := a.setOrigin_eq start
    exact ⟨.ofEq (by rw [ho]), by rw [ho]⟩
  | awaitEqu _ hd =>
    obtain rfl := define_ok hd
    exact ⟨.ofEq rfl, rfl⟩
  | @override _ i _ _ _ _ he =>
    obtain ⟨_, _, _, _, ho⟩ := override_eq he i (a.segmentSize i.segment) a.pending.size
    exact ⟨.ofEq (by rw [ho]), by rw [ho]⟩
  | settle _ h =>
    obtain ⟨o, hs⟩ := settles_of_tryPatch h
    exact ⟨⟨_, hs.diagnostics⟩, hs.rest.1⟩
  | giveUp _ => exact ⟨(reportWaiting_noted a _).diagnostics, (reportWaiting_noted a _).setup⟩
  | _ => exact ⟨.ofEq rfl, rfl⟩

theorem Move.reported (h : Move a b) : Reported a b := h.kept.1

theorem Moves.reported (h : Moves a b) : Reported a b := by
  induction h with
  | refl => exact .ofEq rfl
  | tail _ hm ih => exact ih.trans hm.reported

/-! ## Symbols without a value -/

def Patch.unresolved (p : Patch) (a : Assembly) : List SymbolRef :=
  p.expr.symbols.filter fun ref => ((a.symbols.env p.place).symbol ref).isNone

def Patch.missing (p : Patch) (a : Assembly) : List String := p.expr.pendingNames (a.symbols.env p.place)

namespace Patch

theorem nodup_missing (p : Patch) (a : Assembly) : (p.missing a).Nodup := nodup_distinct _

theorem mem_missing {name : String} : name ∈ p.missing a ↔ ∃ ref ∈ p.unresolved a, ref.text = name := by
  unfold missing Expr.pendingNames
  rw [mem_distinct]
  exact mem_map

theorem missing_eq_nil_iff : p.missing a = [] ↔ p.unresolved a = [] := by
  simp only [eq_nil_iff_forall_not_mem, mem_missing]
  exact ⟨fun h ref hr => h ref.text ⟨ref, hr, rfl⟩, fun h name ⟨ref, hr, _⟩ => h ref hr⟩

theorem waits_iff (hp : p.expr.params = []) : p.Waits a ↔ p.unresolved a ≠ [] :=
  ⟨fun h hn => h.2 (missing_eq_nil_iff.2 hn), fun h => ⟨hp, fun hn => h (missing_eq_nil_iff.1 hn)⟩⟩

theorem unresolved_learned (h : Learned a b) (hp : p.unresolved a = []) : p.unresolved b = [] := by
  unfold unresolved at hp ⊢
  rw [filter_eq_nil_iff] at hp ⊢
  intro ref hr hn
  have hsome := h p.place ref (by simpa [Option.isSome_iff_ne_none] using hp ref hr)
  simp_all

end Patch

/-! ## What a sequence of attempts leaves behind -/

def Setup.reports (setup : Setup) (log : List (Patch × Settlement)) : List Diagnostic :=
  log.filterMap fun entry => entry.2.fault?.map (setup.diagnostic · entry.1.pos)

namespace Resolution

variable {log : List (Patch × Settlement)}

section
variable (h : Resolution a log b)
include h

theorem setup : b.setup = a.setup := by
  induction h with
  | refl a => rfl
  | wait _ _ _ ih => exact ih.trans (Noted.ofAsked (.evalAt _ _ _)).setup
  | settle _ hs _ ih => exact ih.trans hs.rest.1

theorem diagnostics : b.diagnostics = a.diagnostics ++ (a.setup.reports log).toArray := by
  induction h with
  | refl a => exact Array.append_empty.symm
  | @wait a b log p _ _ _ ih =>
    have hasked := Asked.evalAt a p.place p.expr
    rwa [hasked.diagnostics, (Noted.ofAsked hasked).setup] at ih
  | @settle a b c log kept rest p o _ hs _ ih =>
    rw [ih, hs.diagnostics, hs.rest.1, Array.append_assoc]
    congr 1
    unfold Setup.reports
    cases hf : o.fault? with
    | none => simp [hf]
    | some fault => simp [hf]

theorem learned : Learned a b := Learned.settling.resolution h

theorem known (hq : a.QueuePlain) : ∀ entry ∈ log, entry.1.unresolved b = [] := by
  induction h with
  | refl a => intro entry hm; cases hm
  | wait _ _ _ ih => exact ih (hq.same (Asked.evalAt _ _ _).pending)
  | @settle a b c log kept rest p o hsplit hs hrest ih =>
    intro entry hm
    rcases mem_cons.1 hm with rfl | hm
    · have hplain : p.expr.params = [] := (hq p (Array.mem_toList_iff.1 (by simp [hsplit]))).1
      have hnow : p.unresolved a = [] := by
        have := hs.not_waits
        rw [Patch.waits_iff hplain] at this
        exact Classical.not_not.1 this
      exact Patch.unresolved_learned (IsTrans.trans _ _ _ (Learned.settling.settles hs) hrest.learned) hnow
    · exact ih (hq.taken hsplit rfl) entry hm

theorem fault_code : ∀ entry ∈ log, ∀ fault, entry.2.fault? = some fault → fault.code ≠ "Z0201" := by
  induction h with
  | refl a => intro entry hm; cases hm
  | wait _ _ _ ih => exact ih
  | settle _ hs _ ih =>
    intro entry hm fault hf
    rcases mem_cons.1 hm with rfl | hm
    · exact hs.fault_code hf
    · exact ih entry hm fault hf

end

end Resolution

/-! ## Reporting what is left -/

theorem evalAt_waits (h : p.Waits a) : (a.evalAt p.place p.expr).1 = .ok (.pending (p.missing a)) :=
  evalAt_pending_iff.2 ⟨h, rfl⟩

theorem diagnostics_reportWaiting (h : p.Waits a) : (a.reportWaiting p).diagnostics =
      a.diagnostics.push (a.setup.diagnostic (.waiting (p.missing a)) p.pos) := by
  have hvalue := evalAt_waits h
  unfold reportWaiting
  rcases he : a.evalAt p.place p.expr with ⟨outcome, b⟩
  have hasked := Asked.ofEvalAt he
  rw [he] at hvalue
  cases hvalue
  show b.diagnostics.push (b.setup.diagnostic _ p.pos) = _
  rw [hasked.diagnostics, (Noted.ofAsked hasked).setup]

theorem foldl_reportWaiting_noted (queue : List Patch) (a : Assembly) : Noted a (queue.foldl reportWaiting a) := by
  induction queue generalizing a with
  | nil => exact .refl a
  | cons p queue ih => exact (reportWaiting_noted a p).trans (ih _)

theorem Noted.waits (h : Noted a b) : p.Waits b ↔ p.Waits a := by
  unfold Patch.Waits
  rw [h.env]

theorem Noted.missing (h : Noted a b) (p : Patch) : p.missing b = p.missing a := by
  unfold Patch.missing
  rw [h.env]

theorem diagnostics_foldl_reportWaiting {queue : List Patch} (h : ∀ p ∈ queue, p.Waits a) :
    (queue.foldl reportWaiting a).diagnostics =
      a.diagnostics ++ (queue.map fun p => a.setup.diagnostic (.waiting (p.missing a)) p.pos).toArray := by
  induction queue generalizing a with
  | nil => simp
  | cons p queue ih =>
    have hnoted := reportWaiting_noted a p
    have hrest : ∀ q ∈ queue, q.Waits (a.reportWaiting p) := fun q hq =>
      hnoted.waits.2 (h q (mem_cons_of_mem p hq))
    rw [foldl_cons, ih hrest, diagnostics_reportWaiting (h p mem_cons_self), hnoted.setup]
    simp [hnoted.missing]

theorem waits_of_sweeps (a : Assembly) : ∀ p ∈ (sweeps none a.pending.size a).pending,
    p.Waits (sweeps none a.pending.size a) :=
  fun p hp => sweeps_stuck (Nat.le_refl _) p hp rfl

theorem resolveAll_eq (a : Assembly) : a.resolveAll = (sweeps none a.pending.size a).pending.toList.foldl
      reportWaiting { sweeps none a.pending.size a with pending := #[] } := by
  unfold resolveAll
  rw [← Array.foldl_toList]

theorem resolveAll_noted (a : Assembly) :
    Noted { sweeps none a.pending.size a with pending := #[] } a.resolveAll := by
  rw [resolveAll_eq]
  exact foldl_reportWaiting_noted _ _

theorem Settling.resolveAll {R : Assembly → Assembly → Prop} [IsPreorder Assembly R] (h : Settling R)
    (hnote : ∀ {a b : Assembly}, Noted a b → R a b) (a : Assembly) : R a a.resolveAll := by
  obtain ⟨log, hr, -⟩ := sweeps_resolution none a.pending.size a
  exact IsTrans.trans _ _ _ (h.resolution hr)
    (IsTrans.trans _ _ _ (h.setPending _ #[]) (hnote (resolveAll_noted a)))

theorem setPending_of_empty (h : a.pending = #[]) : { a with pending := #[] } = a := by
  rw [← h]

section
variable {R : Assembly → Assembly → Prop} (hrefl : ∀ a, R a a)
  (hgive : ∀ {a c : Assembly} {p : Patch} {queue : List Patch}, a.pending.toList = [] ++ p :: queue →
    R { a.reportWaiting p with pending := ([] ++ queue).toArray } c → R a c)
include hrefl hgive

theorem foldl_reportWaiting_related (queue : List Patch) (a : Assembly) :
    R { a with pending := queue.toArray } { queue.foldl reportWaiting a with pending := #[] } := by
  induction queue generalizing a with
  | nil => exact hrefl _
  | cons p queue ih =>
    refine hgive (a := { a with pending := (p :: queue).toArray }) rfl ?_
    rw [reportWaiting_setPending]
    exact ih (a.reportWaiting p)

theorem resolveAll_related (a : Assembly) : R (sweeps none a.pending.size a) a.resolveAll := by
  have hreport := foldl_reportWaiting_related hrefl hgive (sweeps none a.pending.size a).pending.toList
    { sweeps none a.pending.size a with pending := #[] }
  rwa [← resolveAll_eq, setPending_of_empty (resolveAll_noted a).pending, Array.toArray_toList] at hreport

end

theorem diagnostics_resolveAll (a : Assembly) : a.resolveAll.diagnostics =
    (sweeps none a.pending.size a).diagnostics ++ (sweeps none a.pending.size a).pending.map fun p =>
        (sweeps none a.pending.size a).setup.diagnostic
          (.waiting (p.missing (sweeps none a.pending.size a))) p.pos := by
  have hwaits := waits_of_sweeps a
  rw [resolveAll_eq]
  generalize sweeps none a.pending.size a = stalled at hwaits ⊢
  have hqueue : ∀ p ∈ stalled.pending.toList, p.Waits { stalled with pending := #[] } :=
    fun p hp => hwaits p (Array.mem_toList_iff.1 hp)
  rw [diagnostics_foldl_reportWaiting hqueue]
  exact congrArg (stalled.diagnostics ++ ·) (Array.ext' (by simp [Patch.missing]))

theorem resolveAll_of_empty (h : a.pending = #[]) : a.resolveAll = a := by
  have hsweeps : sweeps none a.pending.size a = a := by
    rw [h]
    rfl
  unfold resolveAll
  dsimp only
  rw [hsweeps, h]
  exact setPending_of_empty h

/-! ## The outcome -/

/-- What became of the patches that waited in `a` at the end of a program: those of the log were
settled, those of the queue of `stalled` were reported, and `b` is the state at the very end. -/
structure Outcome (a : Assembly) (log : List (Patch × Settlement)) (stalled b : Assembly) : Prop where
  /-- the patches of the log were settled one after the other -/
  settled : Resolution a log stalled
  /-- each patch was settled or left over, once -/
  once : (log.map Prod.fst ++ stalled.pending.toList).Perm a.pending.toList
  /-- nothing that was left over can be settled -/
  stuck : ∀ p ∈ stalled.pending, (stalled.tryPatch p).1 = false
  /-- what was settled has all of its symbols -/
  known : ∀ entry ∈ log, entry.1.unresolved stalled = []
  /-- what was left over lacks some -/
  unknown : ∀ p ∈ stalled.pending, p.unresolved stalled ≠ []
  /-- the names reported are those of the symbols without a value -/
  names : ∀ p ∈ stalled.pending, (p.missing stalled).Nodup ∧
    ∀ name, name ∈ p.missing stalled ↔ ∃ ref ∈ p.unresolved stalled, ref.text = name
  /-- when its turn to be reported comes, a patch is still found waiting -/
  waiting : ∀ before p after, stalled.pending.toList = before ++ p :: after →
    ((before.foldl reportWaiting { stalled with pending := #[] }).evalAt p.place p.expr).1 =
      .ok (.pending (p.missing stalled))
  /-- what is reported for settled patches, and then for those left over -/
  diagnostics : b.diagnostics = a.diagnostics ++ (a.setup.reports log).toArray ++
    stalled.pending.map fun p => a.setup.diagnostic (.waiting (p.missing stalled)) p.pos
  /-- only what was left over is reported as not evaluable -/
  code : (∀ names, (Fault.waiting names).code = "Z0201") ∧
    ∀ entry ∈ log, ∀ fault, entry.2.fault? = some fault → fault.code ≠ "Z0201"
  /-- reporting changes nothing else -/
  noted : Noted { stalled with pending := #[] } b
  /-- no patch waits any more -/
  done : b.pending = #[]
  /-- and doing it again changes nothing -/
  again : b.resolveAll = b

/-- At the end of a program every patch that waits is settled or reported, exactly once, and it is
reported as not evaluable exactly if some of its symbols have no value in the end. -/
theorem resolveAll_outcome {a : Assembly} (ha : Reachable a) :
    ∃ log, Outcome a log (sweeps none a.pending.size a) a.resolveAll := by
  obtain ⟨log, hr, -⟩ := sweeps_resolution none a.pending.size a
  have hplain := (ha.moves hr.moves).queuePlain
  have hwaits := waits_of_sweeps a
  have hnoted := resolveAll_noted a
  have hdiagnostics := diagnostics_resolveAll a
  generalize sweeps none a.pending.size a = stalled at *
  refine ⟨log, {
    settled := hr
    once := hr.perm
    stuck := fun p hp => ?_
    known := hr.known ha.queuePlain
    unknown := fun p hp => (Patch.waits_iff (hplain p hp).1).1 (hwaits p hp)
    names := fun p _ => ⟨p.nodup_missing stalled, fun name => Patch.mem_missing⟩
    waiting := fun before p after hq => ?_
    diagnostics := by rw [hdiagnostics, hr.diagnostics, hr.setup]
    code := ⟨fun _ => rfl, hr.fault_code⟩
    noted := hnoted
    done := hnoted.pending
    again := resolveAll_of_empty hnoted.pending }⟩
  · rcases tryPatch_cases stalled p with ⟨-, ht⟩ | ⟨hw, -⟩
    · rw [ht]
    · exact absurd (hwaits p hp) hw
  · have hbefore := foldl_reportWaiting_noted before { stalled with pending := #[] }
    have hp : p.Waits stalled := hwaits p (Array.mem_toList_iff.1 (by simp [hq]))
    rw [evalAt_waits (hbefore.waits.2 hp), hbefore.missing]
    rfl

/-- An assembly in which the entry address waits for `X`, which has a value by now, and the exported
one for `Y`, which has none. -/
def withLateEntries : Assembly :=
  let a := (new {}).addPatch .entry 0 0 (.symbol ⟨["X"], false⟩) none
  let symbols := a.symbols.addSymbol (.module 0) ⟨"X", .label, some (.int 5), ⟨0, 0⟩⟩
  addPatch { a with symbols } .exportEntry 0 0 (.symbol ⟨["Y"], false⟩) none

theorem withLateEntries_reachable : Reachable withLateEntries := by
  refine ⟨{}, ?_⟩
  let a := (new {}).addPatch .entry 0 0 (.symbol ⟨["X"], false⟩) none
  let symbols := a.symbols.addSymbol (.module 0) ⟨"X", .label, some (.int 5), ⟨0, 0⟩⟩
  have hentry : Move (.new {}) a := .awaitEntry (.inl rfl) ⟨rfl, by decide⟩
  have hsymbol : Move a { a with symbols } := .symbols (.add rfl)
  have hexport : Move { a with symbols } withLateEntries := .awaitEntry (.inr rfl) ⟨rfl, by decide⟩
  exact ((Relation.ReflTransGen.single hentry).tail hsymbol).tail hexport

/-- The entry address is found, and the other one is reported as waiting for `Y`. -/
theorem resolveAll_outcome_late : Reachable withLateEntries ∧
    (∃ log, Outcome withLateEntries log (sweeps none 2 withLateEntries)
      withLateEntries.resolveAll) ∧
    withLateEntries.resolveAll.entry = some 5 ∧
    withLateEntries.resolveAll.diagnostics.toList.map (·.fault) = [.waiting ["Y"]] :=
  ⟨withLateEntries_reachable, resolveAll_outcome withLateEntries_reachable, rfl, rfl⟩

end SpectrumAsm
