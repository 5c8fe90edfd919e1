/-
What the lines for an entry address do when they are reached.

There are two entry addresses with a pragma each; the second one is `exported`. Such a line sets its address
at once, or puts a patch into the queue that is to set it later, and no other line touches either
(`EntryKept`, `Walks.enters`).
-/
import SpectrumAsm.Proofs.Simulation
import SpectrumAsm.Proofs.Termination
import SpectrumAsm.Proofs.Upkeep

namespace SpectrumAsm

open List Assembly

variable {code : Code} {p : Patch} {line : SourceLine} {e : Expr} {call : Call}

def entryKind (exported : Bool) : PatchKind := if exported then .exportEntry else .entry

namespace Assembly

def entryOf (exported : Bool) (a : Assembly) : Option UInt16 := if exported then a.exportEntry else a.entry

/-- The patches that are to set the entry address, in order. -/
def entryQueue (exported : Bool) (a : Assembly) : List Patch := a.pending.toList.filter (·.kind == entryKind exported)

/-- None of these patches is in a scope or behind the start of a segment. -/
def EntriesFree (exported : Bool) (a : Assembly) : Prop := ∀ p ∈ a.entryQueue exported, p.scope = none ∧ p.offset = 0

end Assembly

/-- Entry lines one after the other, each of which sets the address or makes a patch. -/
structure Enters (exported : Bool) (a : Assembly) (made : List (UInt16 ⊕ Patch)) (b : Assembly) : Prop where
  entry : b.entryOf exported = (made.filterMap Sum.getLeft?).getLast?.or (a.entryOf exported)
  queue : b.entryQueue exported = a.entryQueue exported ++ made.filterMap Sum.getRight?

/-- No entry line. -/
def EntryKept (exported : Bool) (a b : Assembly) : Prop := a.EntriesFree exported → Enters exported a [] b

variable {exported : Bool} {a b c : Assembly}

namespace Enters

theorem trans {made more : List (UInt16 ⊕ Patch)} (h : Enters exported a made b) (h' : Enters exported b more c) :
    Enters exported a (made ++ more) c where
  entry := by rw [h'.entry, h.entry, filterMap_append, getLast?_append, Option.or_assoc]
  queue := by rw [h'.queue, h.queue, filterMap_append, append_assoc]

theorem kept (he : b.entryOf exported = a.entryOf exported) (hq : b.entryQueue exported = a.entryQueue exported) :
    Enters exported a [] b :=
  ⟨he, by rw [hq]; exact (append_nil _).symm⟩

theorem free (h : Enters exported a [] b) (ha : a.EntriesFree exported) : b.EntriesFree exported := by
  have hqueue : b.entryQueue exported = a.entryQueue exported := h.queue.trans (append_nil _)
  unfold EntriesFree
  rwa [hqueue]

end Enters

namespace EntryKept

instance : IsPreorder Assembly (EntryKept exported) where
  refl _ _ := .kept rfl rfl
  trans _ _ _ h h' ha := (h ha).trans (h' ((h ha).free ha))

theorem queued {more : Array Patch} (he : b.entry = a.entry) (hx : b.exportEntry = a.exportEntry)
    (hp : b.pending = a.pending ++ more) (hmore : ∀ p ∈ more, p.kind ≠ entryKind exported) :
    EntryKept exported a b := by
  intro _
  have hnone : more.toList.filter (·.kind == entryKind exported) = [] := by
    rw [filter_eq_nil_iff]
    intro p hm
    rw [beq_iff_eq]
    exact hmore p (Array.mem_toList_iff.1 hm)
  refine .kept ?_ ?_
  · unfold entryOf
    rw [he, hx]
  · unfold entryQueue
    rw [hp, Array.toList_append, filter_append, hnone, append_nil]

theorem same (he : b.entry = a.entry) (hx : b.exportEntry = a.exportEntry) (hp : b.pending = a.pending) :
    EntryKept exported a b :=
  queued he hx (hp.trans Array.append_empty.symm) (by simp)

end EntryKept

/-! ## Code -/

theorem Code.Built.hole_kind (h : code.Built a) {hole : PatchKind × Nat × Expr}
    (hm : hole ∈ code.holes) (exported : Bool) : hole.1 ≠ entryKind exported ∧ hole.1.inField ≠ entryKind exported := by
  have hpos := (h.hole hm).pos
  generalize hole.1 = kind at hpos
  revert hpos
  cases kind <;> cases exported <;> decide

theorem EntryKept.emit (hc : code.Built a) : EntryKept exported a (a.emit code).2 := by
  rcases he : a.emit code with ⟨fault | _, b⟩
  · obtain ⟨segments, ho⟩ := a.openSegment_eq
    rw [emit_error he, ho]
    exact .same rfl rfl rfl
  · have hemitted := hc.emitted he
    obtain ⟨segments, pending, hb⟩ := hemitted.kept
    refine .queued (by rw [hb]) (by rw [hb]) hemitted.pending fun p hp => ?_
    obtain ⟨hole, hhole, rfl⟩ := mem_map.1 (mem_toArray.1 hp)
    exact (hc.hole_kind hhole exported).1

/-- An override drops no patch for an entry address, since such a patch has no bytes. -/
theorem EntryKept.override (i : StructInstance) (hc : code.Built a) (he : a.emit code = (.ok (), b)) :
    EntryKept exported a (b.moveOverride i (a.segmentSize i.segment) a.pending.size).2 := by
  intro hfree
  have hemitted := hc.emitted he
  obtain ⟨_, _, _, _, hmoved⟩ := override_eq he i (a.segmentSize i.segment) a.pending.size
  have hentry : (b.moveOverride i (a.segmentSize i.segment) a.pending.size).2.entryOf exported =
      a.entryOf exported := by
    rw [hmoved]
    rfl
  refine .kept hentry ?_
  unfold entryQueue
  rcases b.pending_moveOverride i (a.segmentSize i.segment) a.pending.size with
    hpending | ⟨start, stop, target, hpending⟩
  · rw [hpending, hemitted.earlier]
  · rw [hemitted.earlier, hemitted.later] at hpending
    have hearlier' : ((a.pending.filter fun p => !p.touches i.segment start stop).toList).filter
        (·.kind == entryKind exported) = a.entryQueue exported := by
      rw [Array.toList_filter, filter_filter]
      refine filter_congr fun p hp => ?_
      cases hk : p.kind == entryKind exported with
      | false => rfl
      | true =>
        have hout := hfree p (mem_filter.2 ⟨hp, hk⟩)
        have hspan : p.kind.span = 0 := by
          rw [beq_iff_eq.1 hk]
          cases exported <;> rfl
        have htouches : p.touches i.segment start stop = false := by simp [Patch.touches, hout.2, hspan]
        rw [htouches]
        rfl
    have hlater' : (((code.holes.map (a.patchFor (a.segmentSize a.lastSegment))).toArray.map
        (·.moveToField (a.segmentSize i.segment) target)).toList).filter (·.kind == entryKind exported) = [] := by
      rw [filter_eq_nil_iff]
      intro p hp
      simp only [Array.toList_map, map_map, mem_map] at hp
      obtain ⟨hole, hhole, rfl⟩ := hp
      rw [beq_iff_eq]
      exact (hc.hole_kind hhole exported).2
    rw [hpending, Array.toList_append, filter_append, hearlier', hlater', append_nil]
    rfl

/-! ## Sweeps that pass over them -/

theorem applyPatch_entryOf {v : Value} (h : a.applyPatch p v = .ok b)
    (hk : p.kind ≠ entryKind exported) : b.entryOf exported = a.entryOf exported := by
  rcases applyPatch_cases h with ⟨_, _, -, -, rfl⟩ | ⟨_, _, rfl, he, hx⟩ | ⟨_, _, rfl, -⟩
  · rfl
  · cases exported
    · exact he hk
    · exact hx hk
  · rfl

theorem applyPatch_entry {v : Value} (h : a.applyPatch p v = .ok b) (hk : p.kind = entryKind exported) :
    ∃ w, v.lowWord = .ok w ∧ b.entryOf exported = some w ∧ b.symbols = a.symbols := by
  have hset : a.applyPatch p v = v.lowWord.map fun w =>
      if exported then { a with exportEntry := some w } else { a with entry := some w } := by
    unfold applyPatch
    rw [hk]
    cases exported <;> rfl
  rw [hset] at h
  cases hw : v.lowWord with
  | error fault =>
    rw [hw] at h
    cases h
  | ok w =>
    rw [hw] at h
    cases exported <;> cases h <;> exact ⟨w, rfl, rfl, rfl⟩

theorem Asked.entryOf (h : Asked a b) : b.entryOf exported = a.entryOf exported := by
  unfold Assembly.entryOf
  rw [(Noted.ofAsked h).entry, (Noted.ofAsked h).exportEntry]

theorem Asked.entryQueue (h : Asked a b) : b.entryQueue exported = a.entryQueue exported := by
  unfold Assembly.entryQueue
  rw [h.pending]

theorem Settles.entryOf {o : Settlement} (h : Settles a p o b) (hk : p.kind ≠ entryKind exported) :
    b.entryOf exported = a.entryOf exported := by
  cases h with
  | applied he ha => exact (applyPatch_entryOf ha hk).trans (Asked.ofEvalAt he).entryOf
  | @refused c _ _ he _ | @failed c _ he =>
    have hasked : c.entryOf exported = a.entryOf exported := (Asked.ofEvalAt he).entryOf
    exact hasked

theorem Resolution.entries {log : List (Patch × Settlement)} (h : Resolution a log b)
    (hlog : ∀ settled ∈ log, settled.1.kind ≠ entryKind exported) : Enters exported a [] b := by
  induction h with
  | refl a => exact .kept rfl rfl
  | @wait a b log p _ _ _ ih =>
    have hasked := Asked.evalAt a p.place p.expr
    exact (Enters.kept hasked.entryOf hasked.entryQueue).trans (ih hlog)
  | @settle a b c log kept rest p o hq hs _ ih =>
    obtain ⟨hk, hlog⟩ := forall_mem_cons.1 hlog
    have hqueue : (kept ++ rest).filter (·.kind == entryKind exported) = a.entryQueue exported := by
      unfold entryQueue
      rw [hq, filter_append, filter_append, filter_cons_of_neg (by simpa using hk)]
    have hkept : Enters exported a [] { b with pending := (kept ++ rest).toArray } := .kept (hs.entryOf hk) hqueue
    exact hkept.trans (ih hlog)

theorem EntryKept.resolveScope (a : Assembly) (id : Nat) : EntryKept exported a (a.resolveScope id) := by
  intro hfree
  obtain ⟨log, hr, hinside⟩ := sweeps_resolution (some id) a.pending.size a
  refine hr.entries fun settled hm hk => ?_
  have hp : settled.1 ∈ a.pending.toList := hr.perm.subset (mem_append_left _ (mem_map_of_mem hm))
  have hscope := (hfree _ (mem_filter.2 ⟨hp, beq_iff_eq.2 hk⟩)).1
  have hin := hinside settled hm
  unfold isInside at hin
  rw [hscope] at hin
  cases hin

theorem EntryKept.upkeep : Upkeep (EntryKept exported) where
  note hn _ := same hn.entry hn.exportEntry hn.pending
  define a name kind value := by
    rcases a.define_cases name kind (some value) with ⟨fault, hd⟩ | ⟨-, hd⟩ <;> rw [hd] <;> exact same rfl rfl rfl
  setVar a name value := by
    unfold setVar
    dsimp only
    split <;> exact same rfl rfl rfl
  awaitEqu _ hd := by
    obtain rfl := define_ok hd
    refine queued rfl rfl Array.push_eq_append fun p hp => ?_
    rw [mem_singleton.1 (mem_toArray.1 hp)]
    dsimp only
    cases exported <;> decide
  shift hs := by
    obtain ⟨_, rfl⟩ := hs.eq
    exact same rfl rfl rfl
  emit := emit
  setOpened _ _ := same rfl rfl rfl
  override := override
  addMacro _ _ := same rfl rfl rfl
  addStruct _ _ _ := same rfl rfl rfl
  modifyTop _ _ _ := same rfl rfl rfl
  enterScope _ _ _ := same rfl rfl rfl
  openLoop _ _ _ := same rfl rfl rfl
  assign _ _ _ _ := same rfl rfl rfl
  resolveScope := resolveScope
  closeScope _ := same rfl rfl rfl
  enterModule _ := same rfl rfl rfl
  leaveModule _ := same rfl rfl rfl

/-! ## Entry lines -/

def SourceLine.entryExpr? (exported : Bool) (line : SourceLine) : Option Expr :=
  match line.stmt with
  | some (.pragma (.ent e)) => if exported then none else some e
  | some (.pragma (.xent e)) => if exported then some e else none
  | _ => none

/-- The state in which the expression of an entry line is evaluated. -/
def Assembly.atEntry (a : Assembly) (line : SourceLine) : Assembly :=
  ({ a with opened := none } : Assembly).bindLineLabel line

/-- The expressions of the entry lines that were reached, each with the state it is evaluated in. -/
def Tally.entryLines (exported : Bool) (t : Tally) : List (Expr × Assembly) :=
  t.visits.filterMap fun visit => (visit.1.entryExpr? exported).map fun e => (e, visit.2.atEntry visit.1)

/-- What an entry line makes: an address, or a patch that waits with everything the line knew. -/
inductive EntryMade (exported : Bool) : Expr × Assembly → UInt16 ⊕ Patch → Prop where
  | now {e : Expr} {s : Assembly} {v : Value} {w : UInt16} (he : (s.evalAt s.place e).1 = .ok (.ready v))
    (hw : v.lowWord = .ok w) : EntryMade exported (e, s) (.inl w)
  | later {e : Expr} {s : Assembly} {p : Patch} (hwaits : s.Awaits e) (hkind : p.kind = entryKind exported)
    (hexpr : p.expr = e) (hplace : p.place = s.place) (hfree : p.scope = none ∧ p.offset = 0) :
    EntryMade exported (e, s) (.inr p)

theorem run_setEntry (exported : Bool) (e : Expr) (s : Assembly) : (setEntry exported e).run.run s =
    if s.symbols.top?.isSome then (.error (.globalOnly (if exported then "XENT" else "ENT")), s)
    else match s.evalAt s.place e with
      | (.error fault, b) => (.error fault, b)
      | (.ok (.ready v), b) =>
        match v.lowWord with
        | .error fault => (.error fault, b)
        | .ok w => (.ok (), if exported then { b with exportEntry := some w } else { b with entry := some w })
      | (.ok (.pending _), b) => (.ok (), b.addPatch (entryKind exported) b.lastSegment 0 e none) := by
  unfold setEntry
  rw [Step.run_bind, Step.run_get]
  dsimp only
  split
  · rfl
  have hrun : (evalExpr e).run.run s = s.evalAt s.place e := rfl
  rw [Step.run_bind, hrun]
  rcases s.evalAt s.place e with ⟨fault | v | names, b⟩
  · rfl
  · dsimp only
    rw [Step.run_ofExcept_bind]
    cases v.lowWord <;> rfl
  · rfl

/-- An entry line that reports nothing. -/
theorem setEntry_enters (e : Expr) (s : Assembly)
    (h : ((reporting (setEntry exported e)).run s).2.diagnostics = s.diagnostics) :
    ∃ made, EntryMade exported (e, s) made ∧ Enters exported s [made] ((reporting (setEntry exported e)).run s).2 := by
  rw [run_reporting, run_setEntry] at h ⊢
  by_cases htop : s.symbols.top?.isSome = true
  · rw [if_pos htop] at h
    exact absurd h (report_ne s _)
  rw [if_neg htop] at h ⊢
  have hasked := Asked.evalAt s s.place e
  have hreports {b : Assembly} {fault : Fault} (hb : Asked s b) (hd : (b.report fault).diagnostics = s.diagnostics) :
      False := report_ne b fault (hd.trans hb.diagnostics.symm)
  rcases he : s.evalAt s.place e with ⟨fault | v | names, b⟩ <;> rw [he] at h hasked <;> dsimp only at h hasked ⊢
  · exact (hreports hasked h).elim
  · cases hw : v.lowWord with
    | error fault =>
      rw [hw] at h
      exact (hreports hasked h).elim
    | ok w =>
      refine ⟨.inl w, .now (by rw [he]) hw, ?_, ?_⟩
      · cases exported <;> rfl
      · have hqueue : b.entryQueue exported = s.entryQueue exported := hasked.entryQueue
        cases exported <;> exact hqueue.trans (append_nil _).symm
  · have hwaits : s.Awaits e := (evalAt_pending_iff.1 (congrArg Prod.fst he)).1
    have hplace : b.place = s.place := hasked.place
    have hscope : b.symbols.top? = none := by
      have hsame : b.place.scope = s.place.scope := by rw [hplace]
      exact hsame.trans (Option.not_isSome_iff_eq_none.1 htop)
    refine ⟨.inr ⟨entryKind exported, b.lastSegment, 0, e, none, b.symbols.top?, b.symbols.current, b.origin, b.pos⟩,
      .later hwaits rfl rfl hplace ⟨hscope, rfl⟩, ?_, ?_⟩
    · have hentry : b.entryOf exported = s.entryOf exported := hasked.entryOf
      exact hentry
    · have hqueue : b.entryQueue exported = s.entryQueue exported := hasked.entryQueue
      unfold entryQueue addPatch
      rw [Array.toList_push, filter_append]
      refine congrArg₂ (· ++ ·) hqueue ?_
      exact filter_cons_of_pos (beq_self_eq_true _)

theorem setEntry_kept (e : Expr) : (setEntry (!exported) e).Keeps (EntryKept exported) := by
  intro s
  have hkept : EntryKept exported s (s.evalAt s.place e).2 := EntryKept.upkeep.asked (evalExpr_asked e) s
  rw [run_setEntry]
  split
  · exact refl s
  rcases he : s.evalAt s.place e with ⟨fault | v | names, b⟩ <;> rw [he] at hkept <;> dsimp only at hkept ⊢
  · exact hkept
  · cases v.lowWord with
    | error fault => exact hkept
    | ok w =>
      refine IsTrans.trans s b _ hkept fun _ => .kept ?_ ?_
      · cases exported <;> rfl
      · cases exported <;> rfl
  · refine IsTrans.trans s b _ hkept (.queued rfl rfl Array.push_eq_append fun p hp => ?_)
    rw [mem_singleton.1 (mem_toArray.1 hp)]
    dsimp only
    cases exported <;> decide

theorem walkSingle_kept (ha : Reachable a) (hline : line.entryExpr? exported = none) :
    EntryKept exported a ((walkSingle none line).run a).2 := by
  refine EntryKept.upkeep.single a line (fun p hp hsets => ?_) fun name d hd => ?_
  · unfold SourceLine.entryExpr? at hline
    rw [hp] at hline
    cases p with
    | ent e =>
      cases exported with
      | false => cases hline
      | true => exact setEntry_kept e
    | xent e =>
      cases exported with
      | false => exact setEntry_kept e
      | true => cases hline
    | _ => cases hsets
  · have hreach : Reachable (a.atInvocation line) := (Proceeds.housekeeping.atInvocation a line).reachable ha
    have hfits := hreach.structsFit.findStruct hd
    refine EntryKept.upkeep.invokeStruct d (fun l hl p hp => ?_) _
    have hdata := hfits l hl
    unfold fitsStruct at hdata
    rw [hp] at hdata
    exact EntryKept.upkeep.emits (runPragma_emits hdata none)

theorem SourceLine.entryExpr?_eq_some (h : line.entryExpr? exported = some e) :
    ∃ p, line.stmt = some (.pragma p) ∧ runPragma none p = setEntry exported e ∧ p.setsLabel = false := by
  unfold entryExpr? at h
  split at h
  · next e' hs =>
    cases exported <;> cases h
    exact ⟨_, hs, rfl, rfl⟩
  · next e' hs =>
    cases exported <;> cases h
    exact ⟨_, hs, rfl, rfl⟩
  · cases h

theorem walkSingle_enters (hfree : a.EntriesFree exported) (hline : line.entryExpr? exported = some e)
    (hd : ((walkSingle none line).run a).2.diagnostics = a.diagnostics) :
    ∃ made, EntryMade exported (e, a.atEntry line) made ∧
      Enters exported a [made] ((walkSingle none line).run a).2 := by
  obtain ⟨p, hs, hpragma, hsets⟩ := SourceLine.entryExpr?_eq_some hline
  rw [run_walkSingle_stmt hs] at hd ⊢
  have hopened : (if (Stmt.pragma p).keepsInstance then a else { a with opened := none }) =
      { a with opened := none } := rfl
  rw [hopened] at hd ⊢
  by_cases hparam : (Stmt.pragma p).hasParam = true
  · rw [if_pos hparam] at hd
    exact absurd hd (report_ne { a with opened := none } _)
  have hrun : (runStmt none line (.pragma p)).run { a with opened := none } =
      (reporting (setEntry exported e)).run (a.atEntry line) := by
    unfold runStmt
    dsimp only
    rw [hsets, ← hpragma]
    rfl
  rw [if_neg hparam, hrun] at hd ⊢
  -- binding the label of the line reports nothing either
  have hlabel : Moves a (a.atEntry line) := .head (.closeInstance a) (bindLineLabel_calm _ line).moves
  have hrest := (hpragma ▸ runPragma_quiet none p).reporting Quiet.naming.report (a.atEntry line)
  have hclosed : (a.atEntry line).opened = none := (bindLineLabel_calm _ line).opened
  have hquiet := hlabel.reported.between (hrest.history hclosed).1.moves.reported hd
  obtain ⟨made, hmade, henters⟩ := setEntry_enters e (a.atEntry line) hquiet.2
  have hkept : EntryKept exported a (a.atEntry line) :=
    IsTrans.trans _ _ _ (EntryKept.upkeep.setOpened a none) (EntryKept.upkeep.housekeeping.bindLineLabel _ line)
  exact ⟨made, hmade, (hkept hfree).trans henters⟩

/-! ## Whole walks -/

theorem EntryMade.free {entry : Expr × Assembly} (h : EntryMade exported entry (.inr p)) :
    p.scope = none ∧ p.offset = 0 := by
  cases h with
  | later _ _ _ _ hfree => exact hfree

theorem Enters.entriesFree {entries : List (Expr × Assembly)} {made : List (UInt16 ⊕ Patch)}
    (h : Enters exported a made b) (hmade : Forall₂ (EntryMade exported) entries made)
    (ha : a.EntriesFree exported) : b.EntriesFree exported := by
  have hnew : ∀ p ∈ made.filterMap Sum.getRight?, p.scope = none ∧ p.offset = 0 := by
    intro p hp
    obtain ⟨out, hout, hright⟩ := mem_filterMap.1 hp
    rw [Sum.getRight?_eq_some_iff.1 hright] at hout
    obtain ⟨entry, -, hentry⟩ := exists_of_mem_left hmade.flip hout
    exact hentry.free
  intro p hp
  rw [h.queue, mem_append] at hp
  exact hp.elim (ha p) (hnew p)

/-- What the entry lines visited since a state have made, if nothing was reported. -/
structure Entered (exported : Bool) (start : Assembly) (log : List (SourceLine × Assembly)) (a : Assembly) :
    Prop where
  reachable : Reachable a
  reported : Reported start a
  made : a.diagnostics = start.diagnostics → ∃ made,
    Forall₂ (EntryMade exported) (Tally.entryLines exported { visits := log }) made ∧ Enters exported start made a

namespace Entered

variable {start : Assembly} {log visits : List (SourceLine × Assembly)}

theorem append (h : Entered exported start log a) (hfree : start.EntriesFree exported) (hb : Proceeds a b)
    (hmade : a.EntriesFree exported → b.diagnostics = a.diagnostics → ∃ made,
      Forall₂ (EntryMade exported) (Tally.entryLines exported { visits }) made ∧ Enters exported a made b) :
    Entered exported start (log ++ visits) b := by
  have hreported := (hb h.reachable).reported
  refine ⟨hb.reachable h.reachable, h.reported.trans hreported, fun hd => ?_⟩
  obtain ⟨hda, hdb⟩ := h.reported.between hreported hd
  obtain ⟨made, hm, henters⟩ := h.made hda
  obtain ⟨more, hmore, henters'⟩ := hmade (henters.entriesFree hm hfree) hdb
  refine ⟨made ++ more, ?_, henters.trans henters'⟩
  rw [Tally.entryLines, filterMap_append]
  exact rel_append hm hmore

theorem kept (h : Entered exported start log a) (hfree : start.EntriesFree exported) (hb : Proceeds a b)
    (hk : EntryKept exported a b) (hv : ∀ visit ∈ visits, visit.1.entryExpr? exported = none) :
    Entered exported start (log ++ visits) b := by
  refine h.append hfree hb fun ha _ => ⟨[], ?_, hk ha⟩
  have hnone : Tally.entryLines exported { visits } = [] :=
    filterMap_eq_nil_iff.2 fun visit hvisit => by rw [hv visit hvisit]; rfl
  rw [hnone]
  exact .nil

theorem single (h : Entered exported start log a) (hfree : start.EntriesFree exported)
    (hb : Proceeds a ((walkSingle none line).run a).2) :
    Entered exported start (log ++ [(line, a)]) ((walkSingle none line).run a).2 := by
  cases hline : line.entryExpr? exported with
  | none => exact h.kept hfree hb (walkSingle_kept h.reachable hline) (by simp [hline])
  | some e =>
    refine h.append hfree hb fun ha hd => ?_
    obtain ⟨made, hmade, henters⟩ := walkSingle_enters ha hline hd
    refine ⟨[made], ?_, henters⟩
    simp only [Tally.entryLines, filterMap_cons, filterMap_nil, hline, Option.map_some]
    exact .cons hmade .nil

end Entered

theorem entryExpr?_of_invoked (h : a.invoked? line ≠ none) : line.entryExpr? exported = none := by
  refine Option.eq_none_iff_forall_ne_some.2 fun e he => h ?_
  obtain ⟨p, hs, -, -⟩ := SourceLine.entryExpr?_eq_some he
  unfold invoked?
  rw [hs]

/-- The entry lines of a walk that reports nothing make the entry address and its queue, one after the
other. -/
theorem Walks.enters {t : Tally} (h : Walks call a t b) (ha : Reachable a)
    (hfree : a.EntriesFree exported) (hd : b.diagnostics = a.diagnostics) :
    ∃ made, Forall₂ (EntryMade exported) (t.entryLines exported) made ∧ Enters exported a made b := by
  have hkeeps : Housekeeping (EntryKept exported) := EntryKept.upkeep.housekeeping
  have hstep := hkeeps.logs (fun _ _ => .same rfl rfl rfl) (I := Entered exported a)
    (fun {log} _ _ hlog hk hb => append_nil log ▸ hlog.kept hfree hb hk (forall_mem_nil _))
    (fun hlog hb => hlog.single hfree hb)
    fun hlog hinvoked hb =>
      hlog.kept hfree hb (hkeeps.atInvocation _ _) (by simp [entryExpr?_of_invoked hinvoked])
  have hstart : Entered exported a [] a := ⟨ha, .ofEq rfl, fun _ => ⟨[], .nil, .kept rfl rfl⟩⟩
  exact (h.logged hstep hstart).1.made hd

end SpectrumAsm
