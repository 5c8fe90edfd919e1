/-
States of an assembly that are alike.

Everything but the tables is the same, up to the lines things were written on and the wording of diagnostics.
While a pass of a loop that is written out goes on in the first state, its patches wait for symbols that only
change outside of it, so resolving the scope of the pass does nothing. Elsewhere the same patches are tried in
the same order on both sides.
-/
import SpectrumAsm.Proofs.AlikeTables
import SpectrumAsm.Proofs.Drawing
import SpectrumAsm.Proofs.Histories

namespace SpectrumAsm

open List Text Assembly SymbolTable

variable {K : Rewriting} {free line : Prop} {π : ScopeMap} {pass : Option Nat} {env env' : Env} {t u : SymbolTable}
  {a b : Assembly} {e : Expr} {id : Nat}

/-! ## Expressions -/

namespace Expr

theorem steady_of_allSteady {es : List Expr} (h : AllSteady free es) : ∀ e ∈ es, e.Steady free := by
  induction es with
  | nil => exact forall_mem_nil _
  | cons e es ih => exact forall_mem_cons.2 ⟨h.1, ih h.2⟩

theorem Steady.parts (h : e.Steady free) : ∀ part ∈ e.parts, part.Steady free := by
  cases e with
  | call name args => exact steady_of_allSteady h
  | _ => simp_all [parts, Steady]

theorem evaluate_steady (hs : env'.symbol = env.symbol) (ha : env'.address = env.address)
    (he : e.Steady free) : e.evaluate env' = e.evaluate env :=
  evaluate_agrees Steady.parts (fun _ => ha) False.elim he fun ref _ => by rw [hs]

end Expr

namespace SymbolTable

/-- The symbols of an expression were asked for. -/
def Marked (t : SymbolTable) (e : Expr) : Prop := ∀ ref ∈ e.symbols, ref.joined ∈ t.used

theorem mem_marked {refs : List SymbolRef} {used : List String} {name : String} :
    name ∈ marked refs used ↔ name ∈ used ∨ ∃ ref ∈ refs, ref.joined = name := by
  unfold marked
  induction refs generalizing used with
  | nil => simp
  | cons ref refs ih =>
    rw [foldl_cons, ih]
    split
    · next hmem =>
      have hmem := contains_iff_mem.1 hmem
      grind
    · grind

theorem Marked.markExpr (h : t.Marked e) (e' : Expr) : (t.markExpr e').Marked e := by
  intro ref href
  rw [markExpr_marked]
  exact mem_marked.2 (.inl (h ref href))

theorem marked_markExpr (t : SymbolTable) (e : Expr) : (t.markExpr e).Marked e := by
  intro ref href
  rw [markExpr_marked]
  exact mem_marked.2 (.inr ⟨ref, href, rfl⟩)

theorem Marked.markExpr_eq (h : t.Marked e) : t.markExpr e = t := by
  have hsame {refs : List SymbolRef} (hrefs : ∀ ref ∈ refs, ref.joined ∈ t.used) : marked refs t.used = t.used := by
    unfold marked
    induction refs with
    | nil => rfl
    | cons ref refs ih =>
      obtain ⟨href, hrefs⟩ := forall_mem_cons.1 hrefs
      rw [foldl_cons, if_pos (contains_iff_mem.2 href)]
      exact ih hrefs
  rw [markExpr_marked, hsame h]

theorem Alike.evaluate (h : t.Alike K π pass u) {place place' : Place}
    (hs : Stands π (e.Steady K.free) place.scope place'.scope) (hm : place'.module = place.module)
    (ho : place'.origin = place.origin) : e.evaluate (u.env place') = e.evaluate (t.env place) := by
  have hsymbol := h.symbol_env hs hm
  generalize hscope : place.scope = s at hs
  generalize hscope' : place'.scope = s' at hs
  cases hs with
  | scope hs =>
    rw [← hscope, ← hscope'] at hs
    have henv : u.env place' = t.env place := by
      have hcounter : (u.env place').counter = (t.env place).counter := h.loopCounter? hs
      have haddress : (u.env place').address = (t.env place).address := ho
      revert hsymbol hcounter haddress
      generalize u.env place' = x
      generalize t.env place = y
      obtain ⟨_, _, _⟩ := x
      obtain ⟨_, _, _⟩ := y
      rintro rfl rfl rfl
      rfl
    rw [henv]
  | pass hid hsteady => exact Expr.evaluate_steady hsymbol ho hsteady

theorem Alike.top_stands (h : t.Alike K π pass u) {steady : Prop}
    (hsteady : pass ≠ none → steady) : Stands π steady t.top? u.top? := by
  cases pass with
  | none => exact .scope h.top
  | some id =>
    cases h.active with
    | inside hactive hid _ _ =>
      have htop : t.top? = some id := by
        unfold top?
        rw [hactive]
        rfl
      rw [htop]
      exact .pass hid (hsteady nofun)

end SymbolTable

/-! ## States -/

/-- Patches alike. -/
structure Patch.Alike (K : Rewriting) (π : ScopeMap) (p q : Patch) : Prop where
  kind : q.kind = p.kind
  segment : q.segment = p.segment
  offset : q.offset = p.offset
  expr : q.expr = p.expr
  params : p.expr.params = []
  target : Option.Rel (fun x y => SlotRel π x.1 y.1 ∧ y.2 = x.2) p.target q.target
  scope : Stands π (p.expr.Steady K.free) p.scope q.scope
  module : q.module = p.module
  origin : q.origin = p.origin
  pos : K.exact → q.pos = p.pos

/-- Diagnostics alike. -/
structure Diagnostic.Alike (K : Rewriting) (d d' : Diagnostic) : Prop where
  fault : SameFault K.filled d.fault d'.fault
  place : K.exact → d'.file = d.file ∧ d'.line = d.line

/-- The diagnostics of two states after those both had before. -/
def ReportsAlike (K : Rewriting) (ds ds' : Array Diagnostic) : Prop :=
  ∃ new new', ds.toList = K.old.toList ++ new ∧ ds'.toList = K.old.toList ++ new' ∧
    Forall₂ (Diagnostic.Alike K) new new'

/-- In the scope of a pass nothing can be settled: no label waits, and the patches made in it wait for
symbols that were asked for. -/
structure Assembly.Held (a : Assembly) (id : Nat) : Prop where
  hanging : a.hanging = none
  waits : ∀ p ∈ a.pending, p.scope = some id → p.Waits a ∧ a.symbols.Marked p.expr

theorem Assembly.held_none (h : none = some id) : a.Held id := absurd h (Option.some_ne_none id).symm

/-- An expression of the line being assembled has to wait, and means the same in every pass. -/
structure Assembly.AwaitsSteadily (free : Prop) (a : Assembly) (e : Expr) : Prop where
  steady : e.Steady free
  awaits : a.Awaits e
  marked : a.symbols.Marked e

/-- States alike, during pass `pass` of a loop that is written out or outside of such loops, on the same
`line` if there is one. -/
structure Assembly.Alike (K : Rewriting) (π : ScopeMap) (pass : Option Nat) (line : Prop) (a b : Assembly) : Prop where
  names : a.setup.names = K.names
  setup : b.setup = a.setup
  segments : b.segments = a.segments
  symbols : a.symbols.Alike K π pass b.symbols
  pending : Forall₂ (Patch.Alike K π) a.pending.toList b.pending.toList
  reports : ¬K.Quiet → ReportsAlike K a.diagnostics b.diagnostics
  random : b.random = a.random
  readings : b.readings = a.readings
  model : b.model = a.model
  entry : b.entry = a.entry
  exportEntry : b.exportEntry = a.exportEntry
  placed : K.exact → b.placed = a.placed
  trace : b.trace = a.trace
  hanging : Option.Rel (fun x y => y.1 = K.case x.1 ∧ (K.exact → y.2 = x.2)) a.hanging b.hanging
  macroDepth : b.macroDepth = a.macroDepth
  opened : b.opened = a.opened
  overrun : b.overrun = a.overrun
  held : ∀ {id : Nat}, pass = some id → a.Held id
  pos : K.exact → b.pos = a.pos
  origin : line → b.origin = a.origin
  file : line → b.pos.file = a.pos.file

/-- An expression may be left open: it has no parameters, and in a pass that is written out it has to wait. -/
structure Assembly.MayWait (K : Rewriting) (pass : Option Nat) (a : Assembly) (e : Expr) : Prop where
  params : e.params = []
  steady : pass ≠ none → a.AwaitsSteadily K.free e

namespace SymbolTable.SlotRel

theorem extend {π' : ScopeMap} (hπ : π.Extends π') {slot slot' : Slot} (h : SlotRel π slot slot') :
    SlotRel π' slot slot' := by
  cases h with
  | scope h => exact .scope (hπ _ _ h)
  | module id => exact .module id

end SymbolTable.SlotRel

theorem Patch.Alike.extend {π' : ScopeMap} (hπ : π.Extends π') {p q : Patch} (h : p.Alike K π q) : p.Alike K π' q := by
  refine { h with target := ?_, scope := hπ.stands h.scope }
  match p.target, q.target, h.target with
  | _, _, .none => exact .none
  | _, _, .some h => exact .some ⟨h.1.extend hπ, h.2⟩

namespace Assembly.Held

theorem evalAt (h : a.Held id) (place : Place) (e : Expr) : (a.evalAt place e).2.Held id := by
  refine ⟨h.hanging, fun p hp hscope => ?_⟩
  obtain ⟨hwaits, hmarked⟩ := h.waits p hp hscope
  exact ⟨(Asked.evalAt a place e).waits.2 hwaits, hmarked.markExpr e⟩

end Assembly.Held

theorem Assembly.evalAt_recased {e' : Expr} (he : e'.folded = e.folded) (a : Assembly) (place : Place) :
    a.evalAt place e' = a.evalAt place e := by
  have hsame := Expr.evaluate_recased he (a.symbols.env place) a.random
  have hsymbols : e'.symbols = e.symbols :=
    (e'.symbols_renamed _).symm.trans ((congrArg Expr.symbols he).trans (e.symbols_renamed _))
  have hmarked : a.symbols.markExpr e' = a.symbols.markExpr e := by
    unfold markExpr
    rw [hsymbols]
  unfold evalAt
  rw [hmarked]
  exact congrArg (fun x : Except Fault Evaluated × Random =>
    (x.1, { a with random := x.2, symbols := a.symbols.markExpr e })) hsame

namespace Assembly.Alike

section
variable (h : a.Alike K π pass line b)
include h

theorem offLine : a.Alike K π pass False b := { h with origin := False.elim, file := False.elim }

theorem address : b.address = a.address := by
  unfold Assembly.address
  rw [h.segments, h.setup]

theorem stop : b.stop = a.stop := by
  unfold Assembly.stop
  rw [h.segments, h.setup]

theorem lastSegment : b.lastSegment = a.lastSegment := by
  unfold Assembly.lastSegment
  rw [h.segments]

theorem size_pending : b.pending.size = a.pending.size := by
  simpa using h.pending.length_eq.symm

theorem size_diagnostics (hloud : ¬K.Quiet) : b.diagnostics.size = a.diagnostics.size := by
  obtain ⟨new, new', ha, hb, hnew⟩ := h.reports hloud
  rw [← Array.length_toList, ← Array.length_toList, ha, hb, length_append, length_append, hnew.length_eq]

theorem reportAt {f g : Fault} (hfault : SameFault K.filled f g) {pos pos' : Position} (hpos : K.exact → pos' = pos) :
    (a.reportAt f pos).Alike K π pass line (b.reportAt g pos') := by
  refine { h with held := fun hid => { h.held hid with }, reports := fun hloud => ?_ }
  obtain ⟨new, new', ha, hb, hnew⟩ := h.reports hloud
  refine ⟨new ++ [⟨f, SourceTree.fileName a.setup.names pos.file, pos.line⟩],
    new' ++ [⟨g, SourceTree.fileName b.setup.names pos'.file, pos'.line⟩], ?_, ?_, rel_append hnew (.cons ?_ .nil)⟩
  · unfold Assembly.reportAt
    rw [Array.toList_push, ha, append_assoc]
  · unfold Assembly.reportAt
    rw [Array.toList_push, hb, append_assoc]
  · refine ⟨hfault, fun hexact => ?_⟩
    rw [hpos hexact, h.setup]
    exact ⟨rfl, rfl⟩

theorem report {f g : Fault} (hfault : SameFault K.filled f g) : (a.report f).Alike K π pass line (b.report g) :=
  h.reportAt hfault h.pos

theorem reportSame {fault : Fault} (hfault : fault.isParam = false) :
    (a.report fault).Alike K π pass line (b.report fault) :=
  h.report ⟨rfl, fun _ => hfault⟩

variable {p q : Position}

theorem moveTo (hpos : K.SamePos p q) : (a.moveTo p).Alike K π pass True (b.moveTo q) :=
  { h with
    held := fun hid => { h.held hid with }
    pos := hpos.2
    origin := fun _ => h.address
    file := fun _ => hpos.1 }

theorem setPos (hpos : K.SamePos p q) : Alike K π pass line { a with pos := p } { b with pos := q } :=
  { h with held := fun hid => { h.held hid with }, pos := hpos.2, file := fun _ => hpos.1 }

theorem samePos (hline : line) : K.SamePos a.pos b.pos := ⟨h.file hline, h.pos⟩

theorem recordLine (hpos : K.exact → q = p) : (a.recordLine p).Alike K π pass line (b.recordLine q) := by
  refine { h with held := fun hid => { h.held hid with }, placed := fun hexact => ?_ }
  unfold Assembly.recordLine
  rw [h.placed hexact, h.address, hpos hexact]

theorem setSegments {segments segments' : Array Segment} (hs : segments' = segments) :
    Alike K π pass line { a with segments } { b with segments := segments' } :=
  { h with segments := hs, held := fun hid => { h.held hid with } }

theorem setOpened (opened : Option StructInstance) : Alike K π pass line { a with opened } { b with opened } :=
  { h with opened := rfl, held := fun hid => { h.held hid with } }

theorem openSegment : a.openSegment.Alike K π pass line b.openSegment := by
  unfold Assembly.openSegment
  rw [h.segments]
  split
  · exact h.setSegments (by rw [h.setup])
  · exact h

/-! ### Evaluation -/

theorem evalAt {p q : Place} (hs : Stands π (e.Steady K.free) p.scope q.scope)
    (hm : q.module = p.module) (ho : q.origin = p.origin) :
    (b.evalAt q e).1 = (a.evalAt p e).1 ∧ (a.evalAt p e).2.Alike K π pass line (b.evalAt q e).2 := by
  have hevaluate := h.symbols.evaluate hs hm ho
  constructor
  · rw [evalAt_outcome, evalAt_outcome, hevaluate, h.random]
  · refine { h with symbols := h.symbols.markExpr e, random := ?_, held := fun hid => (h.held hid).evalAt p e }
    show ((e.evaluate (b.symbols.env q)).run.run b.random).2 = ((e.evaluate (a.symbols.env p)).run.run a.random).2
    rw [hevaluate, h.random]

theorem evalHere (hline : line) (hsteady : pass ≠ none → e.Steady K.free) :
    (b.evalAt b.place e).1 = (a.evalAt a.place e).1 ∧
      (a.evalAt a.place e).2.Alike K π pass line (b.evalAt b.place e).2 :=
  h.evalAt (p := a.place) (q := b.place) (h.symbols.top_stands hsteady) h.symbols.current (h.origin hline)

/-! ### Code -/

theorem addPatch (hline : line) (kind : PatchKind) (segment offset : Nat) {target target' : Option (Slot × String)}
    (ht : Option.Rel (fun x y => SlotRel π x.1 y.1 ∧ y.2 = x.2) target target') (he : a.MayWait K pass e) :
    (a.addPatch kind segment offset e target).Alike K π pass line (b.addPatch kind segment offset e target') := by
  refine { h with pending := ?_, held := fun {id} hid => ?_ }
  · show Forall₂ _ (a.pending.push _).toList (b.pending.push _).toList
    rw [Array.toList_push, Array.toList_push]
    refine rel_append h.pending (.cons ?_ .nil)
    exact ⟨rfl, rfl, rfl, rfl, he.params, ht, h.symbols.top_stands fun hp => (he.steady hp).steady, h.symbols.current,
      h.origin hline, h.pos⟩
  · refine ⟨(h.held hid).hanging, fun p hp hscope => ?_⟩
    rcases Array.mem_push.1 hp with hp | rfl
    · exact (h.held hid).waits p hp hscope
    · have he := he.steady (by rw [hid]; nofun)
      exact ⟨he.awaits, he.marked⟩

theorem addPatches (hline : line) (segment base : Nat) {holes : List (PatchKind × Nat × Expr)}
    (hholes : ∀ hole ∈ holes, a.MayWait K pass hole.2.2) : Alike K π pass line
      (holes.foldl (fun a (kind, offset, e) => a.addPatch kind segment (base + offset) e none) a)
      (holes.foldl (fun b (kind, offset, e) => b.addPatch kind segment (base + offset) e none) b) := by
  induction holes generalizing a b with
  | nil => exact h
  | cons hole holes ih =>
    obtain ⟨hhole, hholes⟩ := forall_mem_cons.1 hholes
    exact ih (h.addPatch hline hole.1 segment _ .none hhole) fun hole' hmem =>
      ⟨(hholes hole' hmem).params, fun hp => { (hholes hole' hmem).steady hp with }⟩

theorem emit (hline : line) {code : Code} (hholes : ∀ hole ∈ code.holes, a.MayWait K pass hole.2.2) :
    OutcomeRel K.filled (Alike K π pass line) (Agreeing (Alike K π pass line)) (a.emit code) (b.emit code) := by
  have hopen := h.openSegment
  obtain ⟨segments, hopened⟩ := a.openSegment_eq
  unfold Assembly.emit
  dsimp only
  split
  · exact .ok ⟨rfl, h⟩
  rw [hopen.stop]
  split
  · exact .error ⟨rfl, fun _ => rfl⟩ hopen
  refine .ok ⟨rfl, ?_⟩
  rw [hopen.lastSegment, hopen.segments]
  refine addPatches (hopen.setSegments rfl) hline _ _ fun hole hmem => ⟨(hholes hole hmem).params, fun hp => ?_⟩
  rw [hopened]
  exact { (hholes hole hmem).steady hp with }

end

/-! ### Patches tried -/

section
variable (h : a.Alike K π none line b)
include h

theorem setSymbols (ht : t.Alike K π none u) : Alike K π none line { a with symbols := t } { b with symbols := u } :=
  { h with symbols := ht, held := held_none }

theorem setPending {ps qs : Array Patch} (hps : Forall₂ (Patch.Alike K π) ps.toList qs.toList) :
    Alike K π none line { a with pending := ps } { b with pending := qs } :=
  { h with pending := hps, held := held_none }

theorem patchBytes (segment offset : Nat) (bytes : List UInt8) :
    (a.patchBytes segment offset bytes).Alike K π none line (b.patchBytes segment offset bytes) := by
  unfold Assembly.patchBytes
  rw [h.segments]
  exact h.setSegments rfl

section
variable {p q : Patch} (hpq : p.Alike K π q)
include hpq

theorem applyPatch (v : Value) :
    (∃ fault, a.applyPatch p v = .error fault ∧ b.applyPatch q v = .error fault ∧ fault.isParam = false) ∨
      ∃ c d, a.applyPatch p v = .ok c ∧ b.applyPatch q v = .ok d ∧ c.Alike K π none line d := by
  have hword {fault : Fault} (hw : v.lowWord = .error fault) : fault.isParam = false := v.lowWord_filled fault hw
  unfold Assembly.applyPatch
  rw [hpq.kind, hpq.segment, hpq.offset]
  cases hp : p.kind with
  | equ =>
    match p.target, q.target, hpq.target with
    | _, _, .none => exact .inr ⟨_, _, rfl, rfl, h⟩
    | some (slot, name), some (slot', _), .some ⟨hslot, rfl⟩ =>
      exact .inr ⟨_, _, rfl, rfl, h.setSymbols (h.symbols.assign hslot name v)⟩
  | branch =>
    rw [h.segments]
    cases hw : v.lowWord with
    | error fault => exact .inl ⟨fault, rfl, rfl, hword hw⟩
    | ok w =>
      dsimp only [bind, Except.bind]
      cases a.segments[p.segment]? with
      | none => exact .inr ⟨_, _, rfl, rfl, h⟩
      | some s =>
        dsimp only
        cases hbyte : branchByte w (s.wordAt p.offset) with
        | error fault => exact .inl ⟨fault, rfl, rfl, branchByte_filled _ _ _ hbyte⟩
        | ok distance => exact .inr ⟨_, _, rfl, rfl, h.patchBytes _ _ _⟩
  | entry | exportEntry | byte | word | fieldByte | fieldWord =>
    cases hw : v.lowWord with
    | error fault => exact .inl ⟨fault, rfl, rfl, hword hw⟩
    | ok w =>
      refine .inr ⟨_, _, rfl, rfl, ?_⟩
      first
        | exact { h with entry := rfl, held := held_none }
        | exact { h with exportEntry := rfl, held := held_none }
        | exact h.patchBytes _ _ _

theorem evalPatch : ∃ outcome a' b', a.evalAt p.place p.expr = (outcome, a') ∧
    b.evalAt q.place q.expr = (outcome, b') ∧ a'.Alike K π none line b' ∧
      ∀ {fault}, outcome = .error fault → fault.isParam = false := by
  obtain ⟨outcome, a', b', ha, hb, hstate⟩ :=
    exists_answer (h.evalAt (p := p.place) (q := q.place) hpq.scope hpq.module hpq.origin)
  rw [← hpq.expr] at hb
  exact ⟨outcome, a', b', ha, hb, hstate, fun hfault => evalAt_filled hpq.params ((congrArg Prod.fst ha).trans hfault)⟩

theorem tryPatch : (b.tryPatch q).1 = (a.tryPatch p).1 ∧ (a.tryPatch p).2.Alike K π none line (b.tryPatch q).2 := by
  obtain ⟨outcome, a', b', ha, hb, hstate, hfilled⟩ := h.evalPatch hpq
  unfold Assembly.tryPatch
  rw [ha, hb]
  obtain fault | v | names := outcome
  · exact ⟨rfl, hstate.reportAt ⟨rfl, fun _ => hfilled rfl⟩ hpq.pos⟩
  · dsimp only
    rcases hstate.applyPatch hpq v with ⟨fault, ha, hb, hfault⟩ | ⟨c, d, ha, hb, happlied⟩
    · rw [ha, hb]
      exact ⟨rfl, hstate.reportAt ⟨rfl, fun _ => hfault⟩ hpq.pos⟩
    · rw [ha, hb]
      exact ⟨rfl, happlied⟩
  · exact ⟨rfl, hstate⟩

theorem reportWaiting : (a.reportWaiting p).Alike K π none line (b.reportWaiting q) := by
  obtain ⟨outcome, a', b', ha, hb, hstate, hfilled⟩ := h.evalPatch hpq
  unfold Assembly.reportWaiting
  rw [ha, hb, hpq.expr]
  obtain fault | v | names := outcome
  · exact hstate.reportAt ⟨rfl, fun _ => hfilled rfl⟩ hpq.pos
  · exact hstate.reportAt ⟨rfl, fun _ => rfl⟩ hpq.pos
  · exact hstate.reportAt ⟨rfl, fun _ => rfl⟩ hpq.pos

end

end

section
variable {s s' : Option Nat} (hinside : ∀ {a b : Assembly} {p q : Patch}, a.Alike K π none line b → p.Alike K π q →
  b.isInside s' q = a.isInside s p)
include hinside

theorem foldl_sweepStep (equs : Bool) {ps qs : List Patch} (hps : Forall₂ (Patch.Alike K π) ps qs)
    (h : a.Alike K π none line b) {kept kept' : Array Patch}
    (hkept : Forall₂ (Patch.Alike K π) kept.toList kept'.toList) :
    Forall₂ (Patch.Alike K π) (ps.foldl (sweepStep s equs) (kept, a)).1.toList
        (qs.foldl (sweepStep s' equs) (kept', b)).1.toList ∧
      (ps.foldl (sweepStep s equs) (kept, a)).2.Alike K π none line
        (qs.foldl (sweepStep s' equs) (kept', b)).2 := by
  induction hps generalizing a b kept kept' with
  | nil => exact ⟨hkept, h⟩
  | @cons p q ps qs hpq _ ih =>
    have hpush : Forall₂ (Patch.Alike K π) (kept.push p).toList (kept'.push q).toList := by
      rw [Array.toList_push, Array.toList_push]
      exact rel_append hkept (.cons hpq .nil)
    rw [foldl_cons, foldl_cons, sweepStep_eq, sweepStep_eq, hpq.kind, hinside h hpq]
    split
    · obtain ⟨settled, a', b', ha, hb, hstate⟩ := exists_answer (h.tryPatch hpq)
      rw [ha, hb]
      cases settled with
      | true => exact ih hstate hkept
      | false => exact ih hstate hpush
    · exact ih h hpush

theorem sweep (h : a.Alike K π none line b) (equs : Bool) : (a.sweep s equs).Alike K π none line (b.sweep s' equs) := by
  have hnone : Forall₂ (Patch.Alike K π) (#[] : Array Patch).toList (#[] : Array Patch).toList := .nil
  obtain ⟨hkept, hstate⟩ := foldl_sweepStep hinside equs h.pending (h.setPending hnone) hnone
  unfold Assembly.sweep
  dsimp only
  rw [← Array.foldl_toList, ← Array.foldl_toList]
  exact hstate.setPending hkept

theorem sweeps (h : a.Alike K π none line b) (n : Nat) :
    (Assembly.sweeps s n a).Alike K π none line (Assembly.sweeps s' n b) := by
  induction n generalizing a b with
  | zero => exact h
  | succ n ih =>
    have hswept := sweep hinside (sweep hinside h true) false
    unfold Assembly.sweeps
    dsimp only
    rw [hswept.size_pending, h.size_pending]
    split
    · exact ih hswept
    · exact hswept

end

section
variable (h : a.Alike K π none line b)
include h

theorem resolveAll : a.resolveAll.Alike K π none line b.resolveAll := by
  have hfold {ps qs : List Patch} (hps : Forall₂ (Patch.Alike K π) ps qs) {a b : Assembly}
      (h : a.Alike K π none line b) :
      (ps.foldl Assembly.reportWaiting a).Alike K π none line (qs.foldl Assembly.reportWaiting b) := by
    induction hps generalizing a b with
    | nil => exact h
    | cons hpq _ ih => exact ih (h.reportWaiting hpq)
  have hswept : Alike K π none line (.sweeps none a.pending.size a) (.sweeps none a.pending.size b) :=
    sweeps (fun _ _ => rfl) h a.pending.size
  unfold Assembly.resolveAll
  rw [h.size_pending, ← Array.foldl_toList, ← Array.foldl_toList]
  exact hfold hswept.pending (hswept.setPending .nil)

theorem resolveScope {i j : Nat} (hij : π i = some (.scope j)) :
    (a.resolveScope i).Alike K π none line (b.resolveScope j) := by
  unfold Assembly.resolveScope
  rw [h.size_pending]
  -- a patch is inside a scope exactly if what stands for it is inside what stands for the scope
  refine sweeps ?_ h _
  exact fun h hpq => h.symbols.encloses hpq.scope hij

/-! ### Patches moved -/

theorem extract (start stop : Nat) : Forall₂ (Patch.Alike K π) (a.pending.extract start stop).toList
    (b.pending.extract start stop).toList := by
  rw [Array.toList_extract, Array.toList_extract, extract_eq_take_drop, extract_eq_take_drop]
  exact forall₂_take _ (forall₂_drop _ h.pending)

theorem cutSegment (segment size : Nat) :
    (a.cutSegment segment size).Alike K π none line (b.cutSegment segment size) := by
  unfold Assembly.cutSegment
  rw [h.segments]
  exact h.setSegments rfl

theorem cut (segment size count : Nat) : ((a.cutSegment segment size).cutPending count).Alike K π none line
    ((b.cutSegment segment size).cutPending count) :=
  (h.cutSegment segment size).setPending (h.extract 0 count)

theorem moveOverride (i : StructInstance) (source first : Nat) :
    OutcomeRel K.filled (Alike K π none line) (Agreeing (Alike K π none line))
      (a.moveOverride i source first) (b.moveOverride i source first) := by
  have hbytes : b.bytesFrom i.segment source = a.bytesFrom i.segment source := by
    unfold bytesFrom
    rw [h.segments]
  have hcut := h.cutSegment i.segment source
  -- the patches of the bytes that are covered go, those of the override move with it
  have hpending {a b : Assembly} (h : a.Alike K π none line b) (target stop : Nat) : Forall₂ (Patch.Alike K π)
      ((a.pending.extract 0 first).filter (fun p => !p.touches i.segment target stop) ++
        (a.pending.extract first a.pending.size).map (·.moveToField source target)).toList
      ((b.pending.extract 0 first).filter (fun p => !p.touches i.segment target stop) ++
        (b.pending.extract first b.pending.size).map (·.moveToField source target)).toList := by
    rw [Array.toList_append, Array.toList_append, Array.toList_filter, Array.toList_filter, Array.toList_map,
      Array.toList_map, h.size_pending]
    refine rel_append (rel_filter (fun p q hpq => ?_) (h.extract 0 first)) ?_
    · dsimp only [Patch.touches]
      rw [hpq.segment, hpq.offset, hpq.kind]
    · refine forall₂_map_left_iff.2 (forall₂_map_right_iff.2 ((h.extract _ _).imp fun p q hpq => ?_))
      exact { hpq with
        kind := congrArg PatchKind.inField hpq.kind
        offset := congrArg (· - source + target) hpq.offset }
  unfold Assembly.moveOverride
  dsimp only
  rw [hbytes]
  generalize a.bytesFrom i.segment source = bytes
  split
  · exact .error ⟨rfl, fun _ => rfl⟩ (h.cut _ _ _)
  have hput : Alike K π none line
      (if i.start + i.cursor + bytes.length ≤ source then
        (a.cutSegment i.segment source).patchBytes i.segment (i.start + i.cursor) bytes
      else { a.cutSegment i.segment source with overrun := true })
      (if i.start + i.cursor + bytes.length ≤ source then
        (b.cutSegment i.segment source).patchBytes i.segment (i.start + i.cursor) bytes
      else { b.cutSegment i.segment source with overrun := true }) := by
    split
    · exact hcut.patchBytes _ _ _
    · exact { hcut with overrun := rfl, held := held_none }
  exact .ok ⟨rfl, (hput.setPending (hpending hput _ _)).setOpened _⟩

/-! ### Labels -/

section
variable {name name' : String} (hname : upcase name' = upcase name)
include hname

theorem define (kind : SymbolKind) (value : Option Value) : OutcomeRel K.filled (Alike K π none line)
      (fun slot slot' a b => SlotRel π slot slot' ∧ a.Alike K π none line b) (a.define name kind value)
      (b.define name' kind value) := by
  have hslot := h.symbols.labelSlot (upcase name)
  unfold Assembly.define
  dsimp only
  rw [hname, h.symbols.isTaken hslot]
  split
  · exact .error ⟨rfl, fun _ => rfl⟩ h
  · exact .ok ⟨hslot, h.setSymbols (h.symbols.addSymbol hslot ⟨rfl, rfl, rfl, h.pos⟩)⟩

theorem setVar (value : Value) : OutcomeRel K.filled (Alike K π none line)
    (Agreeing (Alike K π none line)) (a.setVar name value) (b.setVar name' value) := by
  unfold Assembly.setVar
  dsimp only
  rw [hname]
  rcases h.symbols.varSlot (upcase name) with ⟨fault, ha, hb, hfault⟩ | ⟨slot, slot', ha, hb, hslot⟩
  · rw [ha, hb]
    exact .error ⟨rfl, fun _ => hfault⟩ h
  · rw [ha, hb]
    exact .ok ⟨rfl, h.setSymbols (h.symbols.storeVar hslot _ _ h.pos)⟩

theorem bindLabel (address : UInt16) : (a.bindLabel name address).Alike K π none line (b.bindLabel name' address) := by
  unfold Assembly.bindLabel
  match a.define name .label _, b.define name' .label _,
    h.define hname .label (some (.int (Int64.ofNat address.toNat))) with
  | _, _, .ok h => exact h.2
  | _, _, .error hfault h => exact h.report hfault

end

omit h in
theorem bindLabel_keeps (a : Assembly) (name : String) (address : UInt16) :
    (a.bindLabel name address).origin = a.origin ∧ (a.bindLabel name address).pos = a.pos := by
  unfold Assembly.bindLabel Assembly.define
  dsimp only
  split
  · next hdefine => split at hdefine <;> cases hdefine; exact ⟨rfl, rfl⟩
  · next hdefine => split at hdefine <;> cases hdefine; exact ⟨rfl, rfl⟩

theorem bindWaiting {name name' : String} (hname : upcase name' = upcase name)
    (hpos : K.exact → q = p) : Alike K π none line
      { Assembly.bindLabel { a with hanging := none, pos := p } name a.address with pos := a.pos }
      { Assembly.bindLabel { b with hanging := none, pos := q } name' b.address with pos := b.pos } := by
  have hcleared : Alike K π none False { a with hanging := none, pos := p }
      { b with hanging := none, pos := q } :=
    { h.offLine with hanging := .none, held := held_none, pos := hpos, file := False.elim }
  have hbound := hcleared.bindLabel hname a.address
  rw [h.address]
  refine { hbound with held := held_none, pos := h.pos, origin := fun hline => ?_, file := fun hline => h.file hline }
  rw [(bindLabel_keeps _ _ _).1, (bindLabel_keeps _ _ _).1]
  exact h.origin hline

theorem flushLabel : a.flushLabel.Alike K π none line b.flushLabel := by
  unfold Assembly.flushLabel
  match a.hanging, b.hanging, h.hanging with
  | _, _, .none => exact h
  | some (name, _), some (_, _), .some ⟨rfl, hpos⟩ => exact h.bindWaiting (K.upcase_case name) hpos

theorem bindEndLabel (label : Option String) (hpos : K.exact → q = p) :
    (a.bindEndLabel label p).Alike K π none False (b.bindEndLabel (label.map K.case) q) := by
  unfold Assembly.bindEndLabel
  cases label with
  | none => exact h.flushLabel.offLine
  | some label =>
    have hmoved : Alike K π none False { a.flushLabel with pos := p } { b.flushLabel with pos := q } :=
      { h.flushLabel.offLine with held := held_none, pos := hpos, file := False.elim }
    dsimp only [Option.map_some]
    rw [show Assembly.address { b.flushLabel with pos := q } = Assembly.address { a.flushLabel with pos := p } from
      hmoved.address]
    exact hmoved.bindLabel (K.upcase_case label) _

/-! ### Scopes -/

theorem openScope (kind : ScopeKind) : (a.openScope kind).Alike K
    (Function.update π a.symbols.nextScope (some (.scope b.symbols.nextScope))) none line (b.openScope kind) :=
  { h with
    symbols := h.symbols.openScope kind
    pending := h.pending.imp fun _ _ hpq => hpq.extend (.update h.symbols.fresh _)
    held := held_none }

theorem enterScope (kind : ScopeKind) (n : Int64) : (a.enterScope kind n).Alike K
    (Function.update π a.symbols.nextScope (some (.scope b.symbols.nextScope))) none line (b.enterScope kind n) := by
  have hopen := h.openScope kind
  refine hopen.setSymbols (hopen.symbols.modifyTop (fun _ => rfl) (fun _ => rfl) fun s s' hs => ?_)
  exact { hs with counter := rfl }

theorem closeScope : a.closeScope.Alike K π none line b.closeScope := by
  have hawaited {i j : Nat} (hij : π i = some (.scope j)) : b.isAwaited j = a.isAwaited i := by
    have hany {ps qs : List Patch} (hps : Forall₂ (Patch.Alike K π) ps qs) :
        (qs.any fun q => b.symbols.encloses q.scope j) = ps.any fun p => a.symbols.encloses p.scope i := by
      induction hps with
      | nil => rfl
      | cons hpq _ ih => rw [any_cons, any_cons, ih, h.symbols.encloses hpq.scope hij]
    unfold isAwaited
    rw [← Array.any_toList, ← Array.any_toList]
    exact hany h.pending
  unfold Assembly.closeScope
  match a.symbols.top?, b.symbols.top?, h.symbols.top with
  | _, _, .none => exact h.setSymbols (h.symbols.closeScope _)
  | _, _, .some hij =>
    dsimp only
    rw [hawaited hij]
    exact h.setSymbols (h.symbols.closeScope _)

/-! ### Passes that are written out -/

theorem isInterrupted : b.isInterrupted = a.isInterrupted := congrArg Option.isSome h.symbols.topScope_exit

theorem enterPass (hhanging : a.hanging = none) (hgoes : a.isInterrupted = false) (n : Int64) :
    (a.enterScope .pass n).Alike K (Function.update π a.symbols.nextScope (some (.pass b.symbols.top?)))
      (some a.symbols.nextScope) line b := by
  have hexit : b.symbols.topScope?.bind (·.exit) = none :=
    Option.isNone_iff_eq_none.1 (Option.isSome_eq_false_iff.1 (h.isInterrupted.trans hgoes))
  refine { h with
    symbols := h.symbols.enterPass hexit n
    pending := h.pending.imp fun _ _ hpq => hpq.extend (.update h.symbols.fresh _)
    held := fun {id} hid => ⟨hhanging, fun p hp hscope => ?_⟩ }
  -- no patch was made inside a scope that is only opened now
  cases hid
  have hfresh : π a.symbols.nextScope = none := h.symbols.fresh
  obtain ⟨q, -, hpq⟩ := exists_of_mem_left h.pending (Array.mem_toList_iff.2 hp)
  match p.scope, q.scope, hscope, hpq.scope with
  | _, _, rfl, .scope (.some hij) => cases hfresh.symm.trans hij
  | _, _, rfl, .pass hid _ => cases hfresh.symm.trans hid

end

section
variable (h : a.Alike K π (some id) line b)
include h

theorem goesOn : a.symbols.topScope?.bind (·.exit) = none ∧ b.isInterrupted = false := by
  cases h.symbols.active with
  | inside hactive hid _ hexit =>
    obtain ⟨s, hs, -, hleft, -⟩ := h.symbols.passes hid
    have htop : a.symbols.topScope? = some s := by
      unfold topScope? top?
      rw [hactive]
      exact hs
    refine ⟨?_, ?_⟩
    · rw [htop]
      exact hleft
    · unfold Assembly.isInterrupted
      rw [hexit]
      rfl

/-- Nothing of a pass that is written out can be resolved at its end. -/
theorem resolvePass : a.resolveScope id = a := by
  have hheld := h.held rfl
  -- a patch is left alone, and leaves the state alone
  have hstep (equs : Bool) (kept : Array Patch) {p : Patch} (hp : p ∈ a.pending) :
      sweepStep (some id) equs (kept, { a with pending := #[] }) p =
        (kept.push p, { a with pending := #[] }) := by
    rw [sweepStep_eq]
    split
    · next hmeant =>
      obtain ⟨-, hinside⟩ := Bool.and_eq_true_iff.1 hmeant
      obtain ⟨q, -, hpq⟩ := exists_of_mem_left h.pending (Array.mem_toList_iff.2 hp)
      obtain ⟨around, hid⟩ : ∃ around, π id = some (.pass around) := by
        cases h.symbols.active with
        | inside _ hid _ _ => exact ⟨_, hid⟩
      obtain ⟨hwaits, hmarked⟩ := hheld.waits p hp (h.symbols.eq_of_encloses hpq.scope hid hinside)
      have heval : a.evalAt p.place p.expr = (.ok (.pending (p.expr.pendingNames (a.symbols.env p.place))), a) := by
        unfold Assembly.evalAt
        rw [Expr.evaluate_waits hwaits, hmarked.markExpr_eq]
        rfl
      have htry : Assembly.tryPatch { a with pending := #[] } p = (false, { a with pending := #[] }) := by
        unfold Assembly.tryPatch
        rw [evalAt_setPending, heval]
      rw [htry]
    · rfl
  have hfold (equs : Bool) {ps : List Patch} (hps : ∀ p ∈ ps, p ∈ a.pending) (kept : Array Patch) :
      ps.foldl (sweepStep (some id) equs) (kept, { a with pending := #[] }) =
        (kept ++ ps.toArray, { a with pending := #[] }) := by
    induction ps generalizing kept with
    | nil => simp
    | cons p ps ih =>
      obtain ⟨hp, hps⟩ := forall_mem_cons.1 hps
      rw [foldl_cons, hstep equs kept hp, ih hps]
      simp
  have hsweep (equs : Bool) : a.sweep (some id) equs = a := by
    unfold Assembly.sweep
    dsimp only
    rw [← Array.foldl_toList, hfold equs fun p hp => Array.mem_toList_iff.1 hp]
    simp
  unfold Assembly.resolveScope
  cases a.pending.size with
  | zero => rfl
  | succ n =>
    unfold Assembly.sweeps
    rw [hsweep, hsweep, if_neg (Nat.lt_irrefl _)]

theorem leavePass : a.closeScope.Alike K π none line b := { h with symbols := h.symbols.leavePass _, held := held_none }

end

end Assembly.Alike

end SpectrumAsm
