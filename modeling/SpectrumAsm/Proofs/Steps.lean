/-
What is done on a line is a sequence of turns: labels, pragmas, operations, structures and their instances.

A new origin and the code of an operation may not come up while an instance is open. Some of what a step does
holds in any state (`Tame`), the rest in states that can come about.
-/
import SpectrumAsm.Proofs.Histories
import SpectrumAsm.Proofs.Memory

namespace SpectrumAsm

open List Step Assembly Noted

variable {a b : Assembly} {code : Code} {α : Type} {x : Step Unit} {line : SourceLine}
  {body : List SourceLine} {i : StructInstance} {p : Pragma}

/-- What a step on a line does in any state: it changes the symbol table in open places only, it does
not change the nesting of macros, and it edits segments. -/
structure Tame (a b : Assembly) : Prop where
  table : a.symbols.Local b.symbols
  depth : b.macroDepth = a.macroDepth
  edits : Edits a b

namespace Tame

variable {c : Assembly}

theorem ofEdits (hs : b.symbols = a.symbols) (hd : b.macroDepth = a.macroDepth) (he : Edits a b) :
    Tame a b := ⟨hs ▸ .refl _, hd, he⟩

theorem refl (a : Assembly) : Tame a a := ofEdits rfl rfl (.refl a)

theorem trans (h : Tame a b) (h' : Tame b c) : Tame a c :=
  ⟨h.table.trans h'.table, h'.depth.trans h.depth, h.edits.trans h'.edits⟩

instance : IsPreorder Assembly Tame where
  refl := refl
  trans _ _ _ := trans

theorem note (h : Noted a b) (hd : b.macroDepth = a.macroDepth) : Tame a b := by
  obtain ⟨used, hu⟩ := h.symbols
  exact ⟨hu ▸ .used _ used, hd, .same h.segments⟩

end Tame

/-- Turns without an override that leave the open structure instance alone. -/
structure Calm (a b : Assembly) : Prop where
  history : History a [] b
  opened : b.opened = a.opened
  edits : Edits a b

namespace Calm

variable {c : Assembly}

theorem refl (a : Assembly) : Calm a a := ⟨.refl a, rfl, .refl a⟩

theorem trans (h : Calm a b) (h' : Calm b c) : Calm a c :=
  ⟨h.history.trans h'.history, h'.opened.trans h.opened, h.edits.trans h'.edits⟩

instance : IsPreorder Assembly Calm where
  refl := refl
  trans _ _ _ := trans

theorem tame (h : Calm a b) : Tame a b := have hstill := h.history.still rfl
  ⟨hstill.1, hstill.2, h.edits⟩

theorem acts (h : Calm a b) : Acts a b := h.history.acts

theorem moves (h : Calm a b) : Moves a b := h.history.moves

theorem idle (h : Idle a b) (ht : Tame a b) (ho : b.opened = a.opened) : Calm a b :=
  ⟨.idle h ht.table ht.depth, ho, ht.edits⟩

theorem note (h : Noted a b) (hd : b.macroDepth = a.macroDepth) : Calm a b := idle (.note h) (.note h hd) h.opened

theorem ofAsked (h : Asked a b) : Calm a b := by
  refine note (.ofAsked h) ?_
  obtain ⟨random, used, rfl⟩ := h
  rfl

theorem report (a : Assembly) (fault : Fault) : Calm a (a.report fault) := note (.report a fault) rfl

theorem symbols {t : SymbolTable} (h : a.symbols.Change t) (hl : a.symbols.Local t)
    (hb : ∀ slot key, t.Blank slot key → a.symbols.Blank slot key) : Calm a { a with symbols := t } :=
  idle (.symbols h hb) ⟨hl, rfl, .same rfl⟩ rfl

theorem emit (hc : code.Built a) (hd : code.IsData) : Calm a (a.emit code).2 := by
  obtain ⟨_, _, he⟩ := a.emit_eq code
  exact ⟨.turn (.emit hc (.inr hd)), by rw [he], .emit a code⟩

end Calm

/-! ## Labels -/

theorem define_calm (a : Assembly) (name : String) (kind : SymbolKind) (value : Value) :
    Calm a (a.define name kind (some value)).2 := by
  rcases a.define_cases name kind (some value) with ⟨fault, h⟩ | ⟨hfree, h⟩ <;> rw [h]
  · exact .refl a
  · exact .symbols (.add hfree) (.add (a.symbols.labelSlot_mem_varSlots _) hfree) fun _ _ hb =>
      hb.of_addSymbol_some rfl

/-- Bookkeeping and definitions of symbols that have a value lead to a related state. -/
structure Naming (R : Assembly → Assembly → Prop) : Prop where
  note : ∀ {a b : Assembly}, Noted a b → b.macroDepth = a.macroDepth → R a b
  define : ∀ (a : Assembly) (name : String) (kind : SymbolKind) (value : Value), R a (a.define name kind (some value)).2

namespace Naming

variable {R : Assembly → Assembly → Prop} (h : Naming R)
include h

theorem report (a : Assembly) (fault : Fault) : R a (a.report fault) := h.note (.report a fault) rfl

theorem asked {x : Step α} (hx : x.Keeps Asked) : x.Keeps R := fun a =>
  h.note (.ofAsked (hx a)) (Calm.ofAsked (hx a)).tame.depth

variable [IsPreorder Assembly R]

omit h in
theorem chain {c : Assembly} (hab : R a b) (hbc : R b c) : R a c := IsTrans.trans a b c hab hbc

theorem reportAll (fault : α → Fault) (pos : α → Position) (xs : List α) (a : Assembly) :
    R a (xs.foldl (fun a x => a.reportAt (fault x) (pos x)) a) := by
  induction xs generalizing a with
  | nil => exact refl a
  | cons x xs ih => exact chain (h.note (.reportAt a _ _) rfl) (ih _)

theorem bindLabel (a : Assembly) (name : String) (address : UInt16) : R a (a.bindLabel name address) := by
  have hdefined := h.define a name .label (.int (Int64.ofNat address.toNat))
  unfold Assembly.bindLabel
  split
  · next hd => rw [hd] at hdefined; exact hdefined
  · next hd => rw [hd] at hdefined; exact chain hdefined (h.report _ _)

theorem flushLabel (a : Assembly) : R a a.flushLabel := by
  unfold Assembly.flushLabel
  split
  · exact refl a
  · next name pos _ =>
    have hfree : R a { a with hanging := none, pos } := h.note (by apply ofSame <;> rfl) rfl
    exact chain (chain hfree (h.bindLabel _ name a.address)) (h.note (.setPos _ _) rfl)

theorem takeLabel (a : Assembly) (line : SourceLine) : R a (a.takeLabel line).2 := by
  unfold Assembly.takeLabel
  split
  · exact refl a
  · exact h.note (.setHanging a none) rfl

theorem bindLineLabel (a : Assembly) (line : SourceLine) : R a (a.bindLineLabel line) := by
  unfold Assembly.bindLineLabel
  split
  · exact chain (h.flushLabel a) (h.bindLabel _ _ _)
  · exact h.flushLabel a

theorem bindEndLabel (a : Assembly) (label : Option String) (pos : Position) : R a (a.bindEndLabel label pos) := by
  unfold Assembly.bindEndLabel
  split
  · exact chain (h.flushLabel a) (chain (h.note (.setPos _ pos) rfl) (h.bindLabel _ _ _))
  · exact h.flushLabel a

/-! ### Pragmas that only take notes -/

theorem setModel (name : String) : (setModel name).Keeps R := by
  refine Keeps.get.bind fun a => ?_
  dsimp only
  split
  · exact fun a => refl a
  · cases Cpu.Model.parse name with
    | ok model => exact .modify fun a => h.note (by apply ofSame <;> rfl) rfl
    | error _ => exact .throw _

theorem addTrace (hex : Bool) (es : List Expr) : (addTrace hex es).Keeps R :=
  (Keeps.mapM es fun e => (h.asked (evalNow_asked e)).bind fun _ => .pure _).bind fun _ =>
    .modify fun _ => h.note (by apply ofSame <;> rfl) rfl

theorem seedRandom (e : Option Expr) : (seedRandom e).Keeps R := by
  cases e with
  | none => exact .modify fun _ => h.note (by apply ofSame <;> rfl) rfl
  | some e =>
    exact (h.asked (evalInt_asked e)).bind fun _ => .modify fun _ => h.note (by apply ofSame <;> rfl) rfl

end Naming

theorem Calm.naming : Naming Calm := ⟨.note, define_calm⟩

theorem flushLabel_calm (a : Assembly) : Calm a a.flushLabel := Calm.naming.flushLabel a

theorem bindLineLabel_calm (a : Assembly) (line : SourceLine) : Calm a (a.bindLineLabel line) :=
  Calm.naming.bindLineLabel a line

theorem bindEndLabel_calm (a : Assembly) (label : Option String) (pos : Position) :
    Calm a (a.bindEndLabel label pos) := Calm.naming.bindEndLabel a label pos

/-! ## Pragmas and operations -/

theorem openSegment_calm (a : Assembly) : Calm a a.openSegment := by
  obtain ⟨_, ho⟩ := a.openSegment_eq
  exact .idle (.openSegment a) (.ofEdits (by rw [ho]) (by rw [ho]) (.openSegment a)) (by rw [ho])

/-- Turns without an override, if no structure instance is open. -/
structure Quiet (a b : Assembly) : Prop where
  tame : Tame a b
  history : a.opened = none → History a [] b ∧ b.opened = none

instance : IsPreorder Assembly Quiet where
  refl a := ⟨.refl a, fun h => ⟨.refl a, h⟩⟩
  trans _ _ _ h h' := by
    refine ⟨h.tame.trans h'.tame, fun ha => ?_⟩
    obtain ⟨hab, hb⟩ := h.history ha
    obtain ⟨hbc, hc⟩ := h'.history hb
    exact ⟨hab.trans hbc, hc⟩

theorem Calm.quiet (h : Calm a b) : Quiet a b := ⟨h.tame, fun ha => ⟨h.history, h.opened.trans ha⟩⟩

theorem Quiet.naming : Naming Quiet :=
  ⟨fun h hd => (Calm.note h hd).quiet, fun a name kind value => (define_calm a name kind value).quiet⟩

/-- There is a place for the code that follows, at an address of its own. -/
inductive Shift : Assembly → Assembly → Prop where
  | openSegment (a : Assembly) : Shift a a.openSegment
  | setOrigin (a : Assembly) (start : UInt16) : Shift a (a.setOrigin start)
  | displace (a : Assembly) (d : Int32) : Shift a
    { a with segments := a.segments.modify a.lastSegment fun s => { s with displacement := some d } }

theorem Shift.eq (h : Shift a b) : ∃ segments, b = { a with segments } := by
  cases h with
  | openSegment => exact a.openSegment_eq
  | setOrigin start => exact a.setOrigin_eq start
  | displace d => exact ⟨_, rfl⟩

theorem Shift.quiet (h : Shift a b) : Quiet a b := by
  obtain ⟨segments, hb⟩ := h.eq
  obtain ⟨hedits, hidle⟩ : Edits a b ∧ (a.opened = none → Idle a b) := by
    cases h with
    | openSegment => exact ⟨.openSegment a, fun _ => .openSegment a⟩
    | setOrigin start => exact ⟨.setOrigin a start, fun ha => .setOrigin ha start⟩
    | displace d => exact ⟨.displace a d, fun _ => .displace a d⟩
  have htame : Tame a b := .ofEdits (by rw [hb]) (by rw [hb]) hedits
  exact ⟨htame, fun ha => ⟨.idle (hidle ha) htame.table htame.depth, by rw [hb]; exact ha⟩⟩

/-- What pragmas and operations do leads to a related state, entry addresses apart. -/
structure Drafting (R : Assembly → Assembly → Prop) : Prop extends Naming R where
  setVar : ∀ (a : Assembly) (name : String) (value : Value), R a (a.setVar name value).2
  awaitEqu : ∀ {a b : Assembly} {e : Expr} {label : String} {slot : Slot}, a.Awaits e →
    a.define label .equ none = (.ok slot, b) → R a (b.addPatch .equ b.lastSegment 0 e (some (slot, Text.upcase label)))
  shift : ∀ {a b : Assembly}, Shift a b → R a b
  emit : ∀ {a : Assembly} {code : Code}, code.Built a → R a (a.emit code).2

def Pragma.setsEntry : Pragma → Bool
  | .ent _ | .xent _ => true
  | _ => false

theorem Pragma.setsEntry_of_setsLabel (h : p.setsLabel = true) : p.setsEntry = false := by
  cases p <;> first | rfl | cases h

namespace Drafting

open Naming (chain)

variable {R : Assembly → Assembly → Prop} (h : Drafting R) [IsPreorder Assembly R]
include h

theorem emits {P : Code → Prop} (hx : x.Emits P) : x.Keeps R :=
  hx.keeps (fun hab => h.note (.ofAsked hab) (Calm.ofAsked hab).tame.depth) fun hbuilt _ => h.emit hbuilt

theorem evalExpr_bind {e : Expr} {f : Evaluated → Step α} (hready : ∀ v, (f (.ready v)).Keeps R)
    (hpending : ∀ names a, a.Awaits e → R a ((f (.pending names)).run.run a).2) : (evalExpr e >>= f).Keeps R := by
  intro a
  have hasked := Asked.evalAt a a.place e
  have hiff := @evalAt_pending_iff a e a.place
  have hkept : R a (a.evalAt a.place e).2 := h.asked (evalExpr_asked e) a
  have hrun : (evalExpr e).run.run a = a.evalAt a.place e := rfl
  rw [run_bind, hrun]
  rcases he : a.evalAt a.place e with ⟨fault | v | names, b⟩ <;> rw [he] at hasked hiff hkept
  · exact hkept
  · exact chain hkept (hready v b)
  · exact chain hkept (hpending names b (hasked.awaits.2 (hiff.1 rfl).1))

section
variable (e : Expr) (label : Option String)

theorem setOrigin : (setOrigin e label).Keeps R := by
  refine (h.asked (evalInt_asked e)).bind fun n => .modify fun a => ?_
  have hmoved := h.shift (.setOrigin a (lowWord n))
  cases label with
  | none => exact hmoved
  | some label => exact chain hmoved (h.bindLabel _ label _)

theorem defineEqu : (defineEqu e label).Keeps R := by
  cases label with
  | none => exact .throw _
  | some label =>
    refine h.evalExpr_bind (fun v => ?_) fun names a ha => ?_
    · exact Keeps.bind (.of fun a => h.define a label .equ v) fun _ => .pure _
    · dsimp only
      rw [run_bind, run_of]
      rcases a.define_cases label .equ none with ⟨fault, hd⟩ | ⟨-, hd⟩ <;> rw [hd]
      · exact refl a
      · exact h.awaitEqu ha hd

theorem setVariable : (setVariable e label).Keeps R := by
  cases label with
  | none => exact .throw _
  | some label => exact (h.asked (evalNow_asked e)).bind fun v => .of fun a => h.setVar a label v

end

theorem runPragma (label : Option String) (hp : p.setsEntry = false) : (runPragma label p).Keeps R := by
  cases p with
  | org e => exact h.setOrigin e label
  | ent e => cases hp
  | xent e => cases hp
  | disp e =>
    exact (h.asked (evalInt_asked e)).bind fun n => .modify fun a =>
      chain (h.shift (.openSegment a)) (h.shift (.displace _ _))
  | equ e => exact h.defineEqu e label
  | var e => exact h.setVariable e label
  | skip target fill => exact h.emits (emitSkip_emits target fill)
  | model name => exact h.setModel name
  | align e => exact h.emits (emitAlign_emits e)
  | trace hex es => exact h.addTrace hex es
  | rndseed e => exact h.seedRandom e
  | error e => exact (h.asked (evalNow_asked e)).bind fun _ => .throw _
  | includebin file offset length => exact h.emits (emitFile_emits file offset length)
  | _ => exact h.emits (runPragma_emits rfl label)

theorem anyPragma (hset : ∀ (a : Assembly) (entry exportEntry : Option UInt16), R a { a with entry, exportEntry })
    (hawait : ∀ {a : Assembly} {kind : PatchKind} {e : Expr}, kind = .entry ∨ kind = .exportEntry → a.Awaits e →
      R a (a.addPatch kind a.lastSegment 0 e none))
    (label : Option String) (p : Pragma) : (SpectrumAsm.runPragma label p).Keeps R := by
  have hentry (exported : Bool) (e : Expr) : (setEntry exported e).Keeps R := by
    refine Keeps.get.bind fun a => ?_
    dsimp only
    split
    · exact fun a => refl a
    refine h.evalExpr_bind (fun v => ?_) fun names a ha => hawait (by cases exported <;> simp) ha
    refine (Keeps.ofExcept v.lowWord).bind fun w => .modify fun a => ?_
    cases exported with
    | false => exact hset a (some w) a.exportEntry
    | true => exact hset a a.entry (some w)
  cases p with
  | ent e => exact hentry false e
  | xent e => exact hentry true e
  | _ => exact h.runPragma label rfl

end Drafting

theorem Quiet.drafting : Drafting Quiet where
  toNaming := naming
  setVar a name value := Calm.quiet (by
    unfold setVar
    dsimp only
    split
    · exact .refl a
    · next h => exact .symbols (.setVar h value a.pos) (.storeVar h value a.pos) fun _ _ hb => hb.of_storeVar)
  awaitEqu ha hd := Calm.quiet (by
    obtain rfl := define_ok hd
    exact ⟨.turn (.awaitEqu ha hd), rfl, .same rfl⟩)
  shift := Shift.quiet
  emit {a code} hc := by
    obtain ⟨_, _, he⟩ := a.emit_eq code
    exact ⟨.ofEdits (by rw [he]) (by rw [he]) (.emit a code), fun ha =>
      ⟨.turn (.emit hc (.inl ha)), by rw [he]; exact ha⟩⟩

theorem runPragma_quiet (label : Option String) (p : Pragma) : (runPragma label p).Keeps Quiet :=
  Quiet.drafting.anyPragma
    (fun a entry exportEntry => (Calm.idle (.setEntry a entry exportEntry) (.ofEdits rfl rfl (.same rfl)) rfl).quiet)
    (fun hk ha => Calm.quiet ⟨.turn (.awaitEntry hk ha), rfl, .same rfl⟩) label p

/-! ## Definition of structures -/

/-- Two states that differ in bookkeeping once segments and patches are put back. -/
structure Measured (a b : Assembly) : Prop where
  noted : Noted a { b with segments := a.segments, pending := a.pending }
  depth : b.macroDepth = a.macroDepth

namespace Measured

variable {c : Assembly}

theorem note (h : Noted a b) (hd : b.macroDepth = a.macroDepth) : Measured a b :=
  ⟨⟨h.setup, rfl, rfl, h.symbols, h.diagnostics, h.entry, h.exportEntry, h.opened, h.overrun⟩, hd⟩

theorem trans (h : Measured a b) (h' : Measured b c) : Measured a c := by
  have hb : Noted { b with segments := a.segments, pending := a.pending }
      { c with segments := a.segments, pending := a.pending } :=
    ⟨h'.noted.setup, rfl, rfl, h'.noted.symbols, h'.noted.diagnostics, h'.noted.entry,
      h'.noted.exportEntry, h'.noted.opened, h'.noted.overrun⟩
  exact ⟨h.noted.trans hb, h'.depth.trans h.depth⟩

instance : IsPreorder Assembly Measured where
  refl a := note (.refl a) rfl
  trans _ _ _ := trans

theorem ofAsked (h : Asked a b) : Measured a b := note (.ofAsked h) (Calm.ofAsked h).tame.depth

theorem report (a : Assembly) (fault : Fault) : Measured a (a.report fault) := note (.report a fault) rfl

theorem emit (a : Assembly) (code : Code) : Measured a (a.emit code).2 := by
  obtain ⟨segments, pending, h⟩ := a.emit_eq code
  refine ⟨?_, by rw [h]⟩
  rw [h]
  apply ofSame <;> rfl

end Measured

theorem Step.Emits.measured {P : Code → Prop} (h : x.Emits P) : x.Keeps Measured :=
  h.keeps .ofAsked fun _ _ => .emit _ _

theorem measureLine_measured (fields : NameTable Nat) (hfit : fitsStruct line = true) :
    (measureLine fields line).Keeps Measured := by
  refine (Walk.Keeps.modify fun a => .note (.moveTo a line.pos) rfl).bind fun _ => ?_
  cases line.label
  case' some label =>
    dsimp only
    split
    case' isTrue => refine .bind (.modify fun a => .report a _) fun _ => ?_
    all_goals refine .bind .get fun a => ?_
  -- With the label noted, the statement is measured.
  all_goals
    split
    · next p hp =>
      unfold fitsStruct at hfit
      rw [hp] at hfit
      exact ((runPragma_emits hfit none).measured.reporting Measured.report).bind fun _ => .pure _
    · exact .bind (.pure _) fun _ => .pure _

section
variable (h : ∀ line ∈ body, fitsStruct line = true)
include h

theorem measureLines_measured : (body.foldlM measureLine {}).Keeps Measured :=
  .foldlM body {} fun fields line hl => measureLine_measured fields (h line hl)

theorem measureStruct_noted (a : Assembly) : Noted a ((measureStruct body).run a).2 ∧
      ((measureStruct body).run a).2.macroDepth = a.macroDepth := by
  obtain ⟨hnoted, hdepth⟩ := measureLines_measured h { a with segments := #[{ start := 0 }] }
  exact ⟨⟨hnoted.setup, rfl, rfl, hnoted.symbols, hnoted.diagnostics, hnoted.entry, hnoted.exportEntry,
    hnoted.opened, hnoted.overrun⟩, hdepth⟩

end

theorem fits_of_structFaults {close : SourceLine} (h : structFaults body close = []) :
    ∀ line ∈ body, fitsStruct line = true := by
  intro line hl
  have hempty := filter_eq_nil_iff.1 (map_eq_nil_iff.1 (append_eq_nil_iff.1 h).1)
  simpa using hempty line hl

variable {R : Assembly → Assembly → Prop}

theorem Naming.measureStruct (h : Naming R)
    (hfits : ∀ line ∈ body, fitsStruct line = true) : (measureStruct body).Keeps R := fun a =>
  have hmeasured := measureStruct_noted hfits a
  h.note hmeasured.1 hmeasured.2

theorem Naming.defineStruct [IsPreorder Assembly R] (h : Naming R)
    (hadd : ∀ (a : Assembly) (d : StructDef), (∀ line ∈ d.body, fitsStruct line = true) →
      R a { a with symbols := a.symbols.addStruct d })
    (name : Option String) (body : List SourceLine) (close : SourceLine) :
    (defineStruct name body close).Keeps R := by
  cases name with
  | none => exact .throw _
  | some name =>
  refine Keeps.get.bind fun a => ?_
  split
  · exact fun a => refl a
  refine Keeps.bind (.modify fun a => h.reportAll Prod.fst Prod.snd _ a) fun _ => ?_
  split
  · next hempty =>
    have hfits := fits_of_structFaults (isEmpty_iff.1 hempty)
    refine (Keeps.lift (h.measureStruct hfits)).bind fun measured => ?_
    refine (Keeps.forM _ fun symbol _ => ?_).bind fun _ => .modify fun a => hadd a _ hfits
    exact .bind (.of fun a => h.define a _ _ _) fun _ => .pure _
  · exact .pure _

/-! ## Instances -/

/-- Every branch that waits lies inside its segment, with its opcode and its distance. -/
def Assembly.BranchesInside (a : Assembly) : Prop :=
  ∀ p ∈ a.pending, p.kind = .branch → p.offset + 2 ≤ a.segmentSize p.segment

theorem Move.branchesInside (hm : Move a b) (h : a.BranchesInside) : b.BranchesInside := fun p hp hk => by
  rcases hm.queued hp with hp | ⟨-, -, hinside⟩
  · exact Nat.le_trans (h p hp hk) (hm.grows.segmentSize_le _)
  · exact hinside hk

theorem Reachable.branchesInside (h : Reachable a) : a.BranchesInside :=
  h.invariant (fun _ _ hp => absurd hp (Array.not_mem_empty _)) fun _ _ => Move.branchesInside

/-- Calm turns that go on in the same segment and put no branches there. -/
structure Steady (a b : Assembly) : Prop where
  calm : Calm a b
  lastSegment : b.lastSegment = a.lastSegment
  branches : ∀ p ∈ b.pending, p.kind = .branch → p ∈ a.pending

namespace Steady

instance : IsPreorder Assembly Steady where
  refl a := ⟨.refl a, rfl, fun _ hp _ => hp⟩
  trans _ _ _ h h' := ⟨h.calm.trans h'.calm, h'.lastSegment.trans h.lastSegment,
    fun p hp hk => h.branches p (h'.branches p hp hk) hk⟩

theorem note (h : Noted a b) (hd : b.macroDepth = a.macroDepth) : Steady a b :=
  ⟨.note h hd, h.lastSegment, fun _ hp _ => h.pending ▸ hp⟩

theorem emit (hc : code.Built a) (hd : code.IsData) : Steady a (a.emit code).2 := by
  refine ⟨.emit hc hd, a.lastSegment_emit code, fun p hp hk => ?_⟩
  rcases he : a.emit code with ⟨fault | _, b⟩ <;> rw [he] at hp
  · rw [emit_error he] at hp
    exact (Idle.openSegment a).pending ▸ hp
  · rw [(hc.emitted he).pending] at hp
    rcases Array.mem_append.1 hp with hp | hp
    · exact hp
    · simp only [mem_toArray, mem_map] at hp
      obtain ⟨hole, hhole, rfl⟩ := hp
      exact absurd hk (hd hole hhole)

end Steady

theorem Step.Emits.steady (h : x.Emits Code.IsData) : x.Keeps Steady :=
  h.keeps (fun hab => .note (.ofAsked hab) (Calm.ofAsked hab).tame.depth) .emit

theorem instanceLine_keeps [IsPreorder Assembly R]
    (hnote : ∀ {a b : Assembly}, Noted a b → b.macroDepth = a.macroDepth → R a b)
    (hpragma : ∀ p, line.stmt = some (.pragma p) → (runPragma none p).Keeps R) : (instanceLine line).Keeps R := by
  unfold instanceLine
  split
  · next p hp =>
    exact .bind (.modify fun a => hnote (.moveTo a line.pos) rfl) fun _ =>
      (hpragma p hp).reporting fun a fault => hnote (.report a fault) rfl
  · exact .pure _

theorem instanceLine_steady (hfit : fitsStruct line = true) : (instanceLine line).Keeps Steady := by
  refine instanceLine_keeps .note fun p hp => ?_
  unfold fitsStruct at hfit
  rw [hp] at hfit
  exact (runPragma_emits hfit none).steady

theorem invokeStruct_history {d : StructDef} (h : ∀ line ∈ d.body, fitsStruct line = true)
    (ha : a.BranchesInside) : History a [] ((invokeStruct d).run a).2 := by
  have hbody : (d.body.forM instanceLine).Keeps Steady := .forM d.body fun line hl => instanceLine_steady (h line hl)
  obtain ⟨hlines, hlast, hbranches⟩ := hbody a.openSegment
  have hback (b : Assembly) : Calm b { b with pos := a.openSegment.pos } := .note (.setPos b _) rfl
  refine ((openSegment_calm a).trans (hlines.trans (hback _))).history.trans (.idle ?_ (.refl _) rfl)
  refine .openInstance hlast.symm fun p hp hk hs => ?_
  have hold : p ∈ a.pending := (Idle.openSegment a).pending ▸ hbranches p hp hk
  have hinside := ha p hold hk
  rw [hs] at hinside
  have hstart : (a.openSegment.segments.back?.map (·.bytes.size)).getD 0 = a.segmentSize a.openSegment.lastSegment := by
    rw [← a.segmentSize_openSegment, Array.back?_eq_getElem?]
    rfl
  exact Nat.le_trans hinside (Nat.le_of_eq hstart.symm)

/-! ## Overrides -/

theorem StructInstance.seek_ok {j : StructInstance} {field : Option String}
    (h : i.seek field = .ok j) : ∃ cursor, j = { i with cursor } := by
  unfold StructInstance.seek at h
  split at h
  · cases h
    exact ⟨i.cursor, rfl⟩
  · split at h
    · cases h
      exact ⟨_, rfl⟩
    · cases h

theorem cut_eq (i : StructInstance) (hs : b.segmentSize i.segment = a.segmentSize i.segment)
    (hp : b.pending = a.pending) :
    (b.cutSegment i.segment (a.segmentSize i.segment)).cutPending a.pending.size = b := by
  have hsegments : (b.cutSegment i.segment (a.segmentSize i.segment)).segments = b.segments := by
    apply Array.ext_getElem?
    intro k
    unfold cutSegment
    rw [Array.getElem?_modify]
    split
    · next hk =>
      subst hk
      unfold segmentSize at hs
      cases hb : b.segments[i.segment]? with
      | none => rfl
      | some s =>
        rw [hb] at hs
        unfold segmentSize
        rw [← hs]
        simp
    · rfl
  have hpending : b.pending.extract 0 a.pending.size = b.pending := by rw [← hp]; simp
  show { b with
    segments := (b.cutSegment i.segment (a.segmentSize i.segment)).segments
    pending := b.pending.extract 0 a.pending.size } = b
  rw [hsegments, hpending]

/-- Cutting off what was emitted undoes it, but for a segment that was opened. -/
theorem cut_emit (he : a.emit code = (.ok (), b)) (hi : i.segment = a.lastSegment) :
    (b.cutSegment i.segment (a.segmentSize i.segment)).cutPending a.pending.size = a ∨
      (b.cutSegment i.segment (a.segmentSize i.segment)).cutPending a.pending.size = a.openSegment := by
  rcases a.emit_cases code with ⟨-, h⟩ | ⟨-, h⟩ | ⟨s, hs, -, h⟩
  · rw [he] at h
    cases h
    exact .inl (cut_eq i rfl rfl)
  · rw [he] at h
    cases h
  rw [he] at h
  cases h
  refine .inr ?_
  have hpending := (Idle.openSegment a).pending
  rw [← a.segmentSize_openSegment, ← hpending, hi, ← a.lastSegment_openSegment]
  generalize a.openSegment = o at *
  have hlast : o.segments[o.lastSegment]? = some s := by
    rw [← hs, Array.back?_eq_getElem?]
    rfl
  have hsegments : ((o.appended s.bytes.size code).cutSegment o.lastSegment
      (o.segmentSize o.lastSegment)).segments = o.segments := by
    apply Array.ext_getElem?
    intro k
    unfold cutSegment appended
    simp only [Array.getElem?_modify]
    split
    · next hk =>
      subst hk
      rw [hlast]
      unfold segmentSize
      rw [hlast]
      simp
    · rfl
  show { o with
    segments := ((o.appended s.bytes.size code).cutSegment o.lastSegment
      (o.segmentSize o.lastSegment)).segments
    pending := (o.pending ++ (code.holes.map (o.patchFor s.bytes.size)).toArray).extract 0
      o.pending.size } = o
  rw [hsegments]
  simp

theorem moveOverride_error {source first : Nat} {fault : Fault}
    (h : a.moveOverride i source first = (.error fault, b)) : b = (a.cutSegment i.segment source).cutPending first := by
  unfold moveOverride at h
  dsimp only at h
  split at h <;> cases h
  rfl

/-- The state in which the data of an override is evaluated: `$` is the address of its field. -/
def Assembly.atField (a : Assembly) (i : StructInstance) : Assembly :=
  { a with origin := ((a.segments[i.segment]?.map (·.wordAt (i.start + i.cursor))).getD 0) }

theorem atField_calm (a : Assembly) (i : StructInstance) : Calm a (a.atField i) :=
  .note (by apply ofSame <;> rfl) rfl

theorem run_putOverride (i : StructInstance) (p : Pragma) (a : Assembly) :
    (putOverride i p).run.run a = match (runPragma none p).run.run (a.atField i) with
      | (.ok (), b) => b.moveOverride i (a.segmentSize i.segment) a.pending.size
      | (.error fault, b) =>
        (.error fault, (b.cutSegment i.segment (a.segmentSize i.segment)).cutPending a.pending.size) := by
  unfold putOverride atField
  rw [run_bind, run_get]
  dsimp only
  rw [run_bind, run_modify]
  dsimp only
  rw [run_bind, run_attempt]
  generalize (runPragma none p).run.run _ = result
  obtain ⟨fault | _, b⟩ := result
  · rfl
  · rfl

theorem putOverride_inv (hp : p.emitsData = true) (a : Assembly) : ∃ b, Asked (a.atField i) b ∧
      ((∃ fault c, (runPragma none p).run.run (a.atField i) = (.error fault, c) ∧
          (((putOverride i p).run.run a).2 = b ∨ ((putOverride i p).run.run a).2 = b.openSegment)) ∨
        ∃ code c, code.Built b ∧ code.IsData ∧ b.emit code = (.ok (), c) ∧
          (runPragma none p).run.run (a.atField i) = (.ok (), c) ∧
          (putOverride i p).run.run a = c.moveOverride i (b.segmentSize i.segment) b.pending.size) := by
  obtain ⟨b, hab, hrun⟩ := runPragma_emits hp none (a.atField i)
  have hsize : b.segmentSize i.segment = a.segmentSize i.segment := by
    unfold segmentSize
    rw [hab.segments]
    rfl
  have hpending : b.pending = a.pending := hab.pending
  refine ⟨b, hab, ?_⟩
  rw [run_putOverride]
  rcases hrun with ⟨fault, hr⟩ | ⟨code, hbuilt, hdata, hr⟩ <;> rw [hr]
  · exact .inl ⟨fault, b, rfl, .inl (cut_eq i hsize hpending)⟩
  rcases he : b.emit code with ⟨fault | _, c⟩
  · obtain ⟨_, ho⟩ := b.openSegment_eq
    refine .inl ⟨fault, c, rfl, .inr ?_⟩
    rw [emit_error he]
    exact cut_eq i ((b.segmentSize_openSegment _).trans hsize) (by rw [ho]; exact hpending)
  · rw [← hsize, ← hpending]
    exact .inr ⟨code, c, hbuilt, hdata, he, rfl, rfl⟩

theorem putOverride_history (hp : p.emitsData = true) (hi : a.opened = some i) (hin : i.segment = a.lastSegment) :
    ∃ xs : List Extent, History a (xs.map .rewrites) ((putOverride i p).run.run a).2 := by
  obtain ⟨b, hab, hrun⟩ := putOverride_inv hp a
  have hcalm : Calm a b := (atField_calm a i).trans (.ofAsked hab)
  have hopen : Calm a b.openSegment := hcalm.trans (openSegment_calm b)
  rcases hrun with ⟨_, _, -, hr | hr⟩ | ⟨code, c, hbuilt, hdata, he, -, hr⟩ <;> rw [hr]
  · exact ⟨[], hcalm.history⟩
  · exact ⟨[], hopen.history⟩
  have hopened : b.opened = some i := by rw [(ofAsked hab).opened]; exact hi
  have hlast : i.segment = b.lastSegment := hin.trans (ofAsked hab).lastSegment.symm
  rcases hm : c.moveOverride i (b.segmentSize i.segment) b.pending.size with ⟨fault | _, d⟩
  · rw [moveOverride_error hm]
    rcases cut_emit he hlast with hcut | hcut <;> rw [hcut]
    · exact ⟨[], hcalm.history⟩
    · exact ⟨[], hopen.history⟩
  · exact ⟨_, hcalm.history.trans (.turn (.override hopened hlast hbuilt hdata he hm))⟩

theorem moveOverride_tame (a : Assembly) (i : StructInstance) (source first : Nat) :
    Tame a (a.moveOverride i source first).2 := by
  obtain ⟨_, _, _, _, h⟩ := a.moveOverride_eq i source first
  refine .ofEdits (by rw [h]) (by rw [h]) ((Edits.cut a i.segment source).trans ?_)
  unfold moveOverride
  dsimp only
  split
  · exact .same rfl
  · split
    · exact (Edits.patch _ i.segment (i.start + i.cursor) _).trans (.same rfl)
    · exact .same rfl

theorem overrideField_history (field : Option String) (p : Pragma) (ha : a.InstanceInPlace) :
    ∃ xs : List Extent, History a (xs.map .rewrites) ((overrideField field p).run.run a).2 := by
  unfold overrideField
  rw [run_bind, run_get]
  dsimp only
  cases ho : a.opened with
  | none => exact ⟨[], .refl a⟩
  | some i =>
    rw [run_ofExcept_bind]
    cases hseek : i.seek field with
    | error fault => exact ⟨[], .refl a⟩
    | ok j =>
      obtain ⟨cursor, rfl⟩ := StructInstance.seek_ok hseek
      have hmoved : History a [] { a with opened := some { i with cursor } } := .idle (.seek ho cursor) (.refl _) rfl
      by_cases hp : p.emitsData = true
      · simp only [hp]
        obtain ⟨xs, h⟩ := putOverride_history hp (a := { a with opened := some { i with cursor } })
          rfl (ha i ho)
        exact ⟨xs, hmoved.trans h⟩
      · simp only [hp]
        exact ⟨[], hmoved⟩

/-- What pragmas, operations, instances of structures and overrides do leads to a related state. -/
structure Filing (R : Assembly → Assembly → Prop) : Prop extends Drafting R where
  setOpened : ∀ (a : Assembly) (i : Option StructInstance), R a { a with opened := i }
  override : ∀ {a b : Assembly} {code : Code} (i : StructInstance), code.Built a → a.emit code = (.ok (), b) →
    R a (b.moveOverride i (a.segmentSize i.segment) a.pending.size).2

namespace Filing

open Naming (chain)

variable (h : Filing R) [IsPreorder Assembly R]
include h

theorem invokeStruct (d : StructDef)
    (hbody : ∀ line ∈ d.body, ∀ p, line.stmt = some (.pragma p) → (runPragma none p).Keeps R) :
    (invokeStruct d).Keeps R := by
  refine .bind (.modify fun a => h.shift (.openSegment a)) fun _ => .bind .get fun a => ?_
  refine (Walk.Keeps.forM d.body fun line hline => ?_).bind fun _ => .modify fun b => ?_
  · exact instanceLine_keeps h.note (hbody line hline)
  · exact chain (h.note (.setPos b a.pos) rfl) (h.setOpened { b with pos := a.pos } _)

theorem putOverride (i : StructInstance) (hp : p.emitsData = true) : (putOverride i p).Keeps R := by
  intro a
  obtain ⟨b, hab, hrun⟩ := putOverride_inv hp a
  have hfield : R a (a.atField i) := h.note (by apply ofSame <;> rfl) rfl
  have hasked : R a b := chain hfield (h.note (.ofAsked hab) (Calm.ofAsked hab).tame.depth)
  rcases hrun with ⟨_, _, -, hr | hr⟩ | ⟨code, c, hbuilt, -, he, -, hr⟩ <;> rw [hr]
  · exact hasked
  · exact chain hasked (h.shift (.openSegment b))
  · exact chain hasked (h.override i hbuilt he)

theorem overrideField (field : Option String) (p : Pragma) : (overrideField field p).Keeps R := by
  refine Keeps.get.bind fun a => ?_
  cases a.opened with
  | none => exact .throw _
  | some i =>
    refine (Keeps.ofExcept (i.seek field)).bind fun j => ?_
    refine Keeps.bind (.modify fun a => h.setOpened a _) fun _ => ?_
    split
    · next hp => exact h.putOverride j hp
    · exact fun a => refl a

end Filing

theorem Tame.filing : Filing Tame where
  note := note
  define a name kind value := (define_calm a name kind value).tame
  setVar a name value := (Quiet.drafting.setVar a name value).tame
  awaitEqu ha hd := (Quiet.drafting.awaitEqu ha hd).tame
  shift h := h.quiet.tame
  emit hc := (Quiet.drafting.emit hc).tame
  setOpened _ _ := .ofEdits rfl rfl (.same rfl)
  override {a b code} i hc he := by
    have hemit := (Quiet.drafting.emit hc).tame
    rw [he] at hemit
    exact hemit.trans (moveOverride_tame b i _ _)

end SpectrumAsm
