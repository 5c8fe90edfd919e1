/-
What can happen to an assembly.

`Move` lists everything that is ever done to the state of an assembly; a run is a sequence of moves (`Moves`),
and an invariant of all runs is one that every move keeps. The queue of waiting patches is taken as it stands:
a sweep through it is a sequence of attempts. Measuring a structure and overriding a field are moves as a
whole, since they pass through states that are taken back.
-/
import Mathlib.Logic.Relation
import SpectrumAsm.Assembly.Resolve
import SpectrumAsm.Assembly.Struct
import SpectrumAsm.Proofs.Building

namespace SpectrumAsm

variable {a b : Assembly}

/-! ## Bookkeeping -/

/-- Two states that differ at most in what is kept track of from line to line: names asked for,
random numbers, diagnostics, lines and their addresses, the waiting label, the model. -/
structure Noted (a b : Assembly) : Prop where
  setup : b.setup = a.setup
  segments : b.segments = a.segments
  pending : b.pending = a.pending
  symbols : ∃ used, b.symbols = { a.symbols with used }
  diagnostics : ∃ more, b.diagnostics = a.diagnostics ++ more
  entry : b.entry = a.entry
  exportEntry : b.exportEntry = a.exportEntry
  opened : b.opened = a.opened
  overrun : b.overrun = a.overrun

namespace Noted

theorem refl (a : Assembly) : Noted a a := ⟨rfl, rfl, rfl, ⟨_, rfl⟩, ⟨#[], by simp⟩, rfl, rfl, rfl, rfl⟩

theorem trans {c : Assembly} (h : Noted a b) (h' : Noted b c) : Noted a c := by
  obtain ⟨used, hu⟩ := h.symbols
  obtain ⟨used', hu'⟩ := h'.symbols
  obtain ⟨more, hm⟩ := h.diagnostics
  obtain ⟨more', hm'⟩ := h'.diagnostics
  exact {
    setup := h'.setup.trans h.setup
    segments := h'.segments.trans h.segments
    pending := h'.pending.trans h.pending
    symbols := ⟨used', by rw [hu', hu]⟩
    diagnostics := ⟨more ++ more', by rw [hm', hm, Array.append_assoc]⟩
    entry := h'.entry.trans h.entry
    exportEntry := h'.exportEntry.trans h.exportEntry
    opened := h'.opened.trans h.opened
    overrun := h'.overrun.trans h.overrun }

theorem ofSame (hs : b.setup = a.setup) (hg : b.segments = a.segments) (hp : b.pending = a.pending)
    (ht : b.symbols = a.symbols) (hd : b.diagnostics = a.diagnostics) (he : b.entry = a.entry)
    (hx : b.exportEntry = a.exportEntry) (ho : b.opened = a.opened) (hv : b.overrun = a.overrun) : Noted a b :=
  ⟨hs, hg, hp, ⟨a.symbols.used, by rw [ht]⟩, ⟨#[], by simp [hd]⟩, he, hx, ho, hv⟩

theorem lastSegment (h : Noted a b) : b.lastSegment = a.lastSegment := by
  unfold Assembly.lastSegment
  rw [h.segments]

theorem env (h : Noted a b) (place : Place) : b.symbols.env place = a.symbols.env place := by
  obtain ⟨used, hu⟩ := h.symbols
  rw [hu, SymbolTable.env_used]

theorem ofAsked (h : Asked a b) : Noted a b := by
  obtain ⟨random, used, rfl⟩ := h
  exact ⟨rfl, rfl, rfl, ⟨used, rfl⟩, ⟨#[], by simp⟩, rfl, rfl, rfl, rfl⟩

section
variable (a : Assembly)

theorem reportAt (fault : Fault) (pos : Position) : Noted a (a.reportAt fault pos) :=
  ⟨rfl, rfl, rfl, ⟨_, rfl⟩, ⟨#[_], rfl⟩, rfl, rfl, rfl, rfl⟩

theorem report (fault : Fault) : Noted a (a.report fault) := reportAt a fault a.pos

theorem moveTo (pos : Position) : Noted a (a.moveTo pos) := by
  apply ofSame <;> rfl

theorem setPos (pos : Position) : Noted a { a with pos } := by
  apply ofSame <;> rfl

theorem setHanging (hanging : Option (String × Position)) : Noted a { a with hanging } := by
  apply ofSame <;> rfl

theorem recordLine (pos : Position) : Noted a (a.recordLine pos) := by
  apply ofSame <;> rfl

end

end Noted

/-! ## Changes of the symbol table -/

/-- Changes of a symbol table that do not depend on the rest of the assembly. -/
inductive SymbolTable.Change : SymbolTable → SymbolTable → Prop where
  | openScope (t : SymbolTable) (kind : ScopeKind) : Change t (t.openScope kind)
  /-- the innermost scope counts, is left or announces a name -/
  | modifyTop (t : SymbolTable) (f : Scope → Scope)
    (h : ∀ s, (f s).kind = s.kind ∧ (f s).parent = s.parent ∧ (f s).symbols = s.symbols) :
    Change t (t.modifyTop f)
  | add {t : SymbolTable} {slot : Slot} {s : Symbol} (h : t.isTaken slot s.name = false) :
    Change t (t.addSymbol slot s)
  | setVar {t : SymbolTable} {slot : Slot} {key : String} (h : t.varSlot key = .ok slot)
    (value : Value) (pos : Position) : Change t (t.storeVar slot key value pos)
  /-- the variable of a counting loop goes on -/
  | count (t : SymbolTable) (id : Nat) (key : String) (value : Value) :
    Change t (t.assign (.scope id) key value)
  | enterModule {t u : SymbolTable} {name : String} (h : t.enterModule name = .ok u) : Change t u
  | leaveModule (t : SymbolTable) : Change t t.leaveModule
  | addMacro (t : SymbolTable) (d : MacroDef) : Change t (t.addMacro d)
  | addStruct {t : SymbolTable} {d : StructDef} (h : ∀ line ∈ d.body, fitsStruct line = true) :
    Change t (t.addStruct d)

theorem Assembly.define_cases (a : Assembly) (name : String) (kind : SymbolKind)
    (value : Option Value) :
    let key := Text.upcase name
    let slot := a.symbols.labelSlot key
    (∃ fault, a.define name kind value = (.error fault, a)) ∨
      a.symbols.isTaken slot key = false ∧ a.define name kind value =
        (.ok slot, { a with symbols := a.symbols.addSymbol slot ⟨key, kind, value, a.pos⟩ }) := by
  unfold define
  dsimp only
  split
  · exact .inl ⟨_, rfl⟩
  · next h => exact .inr ⟨by simpa using h, rfl⟩

theorem Assembly.define_ok {name : String} {kind : SymbolKind} {value : Option Value} {slot : Slot}
    (h : a.define name kind value = (.ok slot, b)) :
    b = { a with symbols := a.symbols.addSymbol slot ⟨Text.upcase name, kind, value, a.pos⟩ } := by
  rcases a.define_cases name kind value with ⟨fault, hc⟩ | ⟨-, hc⟩ <;> rw [hc] at h <;> cases h
  rfl

/-! ## Moves -/

inductive Move : Assembly → Assembly → Prop where
  | note {a b : Assembly} (h : Noted a b) : Move a b
  | symbols {a : Assembly} {t : SymbolTable} (h : a.symbols.Change t) : Move a { a with symbols := t }
  | closeScope (a : Assembly) : Move a a.closeScope
  /-- there is a segment to put bytes into -/
  | openSegment (a : Assembly) : Move a a.openSegment
  /-- the code of a line is put into the segment, or does not fit -/
  | emit {a : Assembly} {code : Code} (h : code.Built a) : Move a (a.emit code).2
  | setOrigin {a : Assembly} (h : a.opened = none) (start : UInt16) : Move a (a.setOrigin start)
  /-- code is meant to run elsewhere -/
  | displace (a : Assembly) (d : Int32) : Move a
    { a with segments := a.segments.modify a.lastSegment fun s => { s with displacement := some d } }
  | setEntry (a : Assembly) (entry exportEntry : Option UInt16) : Move a { a with entry, exportEntry }
  | awaitEntry {a : Assembly} {e : Expr} {kind : PatchKind} (hk : kind = .entry ∨ kind = .exportEntry)
    (h : a.Awaits e) : Move a (a.addPatch kind a.lastSegment 0 e none)
  | awaitEqu {a b : Assembly} {e : Expr} {label : String} {slot : Slot} (h : a.Awaits e)
    (hd : a.define label .equ none = (.ok slot, b)) :
    Move a (b.addPatch .equ b.lastSegment 0 e (some (slot, Text.upcase label)))
  /-- a structure instance at the end of the code is opened for overrides -/
  | openInstance {a : Assembly} {i : StructInstance} (h : i.segment = a.lastSegment) :
    Move a { a with opened := some i }
  /-- the next override of the open instance goes to a field -/
  | seek {a : Assembly} {i : StructInstance} (h : a.opened = some i) (cursor : Nat) :
    Move a { a with opened := some { i with cursor } }
  | closeInstance (a : Assembly) : Move a { a with opened := none }
  /-- a field of the open instance is overridden, or the override does not fit -/
  | override {a b : Assembly} {i : StructInstance} {code : Code} (hi : a.opened = some i)
    (hc : code.Built a) (hd : code.IsData) (he : a.emit code = (.ok (), b)) :
    Move a (b.moveOverride i (a.segmentSize i.segment) a.pending.size).2
  | settle {a b : Assembly} {kept rest : List Patch} {p : Patch}
    (hq : a.pending.toList = kept ++ p :: rest) (h : a.tryPatch p = (true, b)) :
    Move a { b with pending := (kept ++ rest).toArray }
  | giveUp {a : Assembly} {kept rest : List Patch} {p : Patch}
    (hq : a.pending.toList = kept ++ p :: rest) :
    Move a { a.reportWaiting p with pending := (kept ++ rest).toArray }

abbrev Moves : Assembly → Assembly → Prop := Relation.ReflTransGen Move

/-- The states an assembly can get into. -/
def Reachable (a : Assembly) : Prop := ∃ setup, Moves (.new setup) a

namespace Moves

theorem note (h : Noted a b) : Moves a b := .single (.note h)

theorem ofAsked (h : Asked a b) : Moves a b := .note (.ofAsked h)

theorem report (a : Assembly) (fault : Fault) : Moves a (a.report fault) := .note (.report a fault)

theorem symbols {t : SymbolTable} (h : a.symbols.Change t) : Moves a { a with symbols := t } := .single (.symbols h)

theorem invariant {P : Assembly → Prop} (hP : ∀ a b, Move a b → P a → P b) (h : Moves a b) (ha : P a) : P b := by
  induction h with
  | refl => exact ha
  | tail _ hm ih => exact hP _ _ hm ih

end Moves

theorem Reachable.moves (ha : Reachable a) (h : Moves a b) : Reachable b := by
  obtain ⟨setup, hs⟩ := ha
  exact ⟨setup, hs.trans h⟩

theorem Reachable.invariant {P : Assembly → Prop} (hnew : ∀ setup, P (.new setup))
    (hP : ∀ a b, Move a b → P a → P b) (h : Reachable a) : P a := by
  obtain ⟨setup, hs⟩ := h
  exact hs.invariant hP (hnew setup)

end SpectrumAsm
