/-
What a program does to its symbol table.

`Bookkeeping` lists the ways in which lines, blocks and the resolver change the table. A relation between
tables that all of them stay inside is kept by every call of a walk (`Bookkeeping.call`) and by the resolver
at the end of a program (`Bookkeeping.settling`).
-/
import SpectrumAsm.Proofs.Upkeep

namespace SpectrumAsm

/-- All changes of a symbol table lead to a related one. -/
structure Bookkeeping (S : SymbolTable → SymbolTable → Prop) : Prop where
  used : ∀ (t : SymbolTable) (used : List String), S t { t with used }
  define : ∀ {t : SymbolTable} {name : String} (kind : SymbolKind) (value : Option Value) (pos : Position),
    t.isTaken (t.labelSlot (Text.upcase name)) (Text.upcase name) = false →
    S t (t.addSymbol (t.labelSlot (Text.upcase name)) ⟨Text.upcase name, kind, value, pos⟩)
  storeVar : ∀ {t : SymbolTable} {slot : Slot} {name : String} (value : Value) (pos : Position),
    t.varSlot (Text.upcase name) = .ok slot → S t (t.storeVar slot (Text.upcase name) value pos)
  assign : ∀ (t : SymbolTable) (slot : Slot) (key : String) (value : Value), S t (t.assign slot key value)
  addMacro : ∀ (t : SymbolTable) (d : MacroDef), S t (t.addMacro d)
  addStruct : ∀ (t : SymbolTable) (d : StructDef), S t (t.addStruct d)
  modifyTop : ∀ (t : SymbolTable) (f : Scope → Scope), (∀ s, (f s).symbols = s.symbols) → S t (t.modifyTop f)
  openScope : ∀ (t : SymbolTable) (kind : ScopeKind), S t (t.openScope kind)
  openLoop : ∀ (t : SymbolTable) (s : Symbol),
    S (t.openScope .loop) ((t.openScope .loop).addSymbol (.scope t.nextScope) s)
  closeScope : ∀ (t : SymbolTable) (keep : Bool), S t (t.closeScope keep)
  enterModule : ∀ {t u : SymbolTable} {name : String}, t.enterModule name = .ok u → S t u
  leaveModule : ∀ t : SymbolTable, S t t.leaveModule

/-- A relation between states that looks at the symbol tables only. -/
def OnTables (S : SymbolTable → SymbolTable → Prop) (a b : Assembly) : Prop := S a.symbols b.symbols

namespace Bookkeeping

variable {S : SymbolTable → SymbolTable → Prop} (h : Bookkeeping S)

theorem note (h : Bookkeeping S) {a b : Assembly} (hn : Noted a b) : OnTables S a b := by
  obtain ⟨used, hu⟩ := hn.symbols
  unfold OnTables
  rw [hu]
  exact h.used a.symbols used

variable [IsPreorder SymbolTable S]

instance : IsPreorder Assembly (OnTables S) where
  refl a := refl (r := S) a.symbols
  trans a b c h h' := IsTrans.trans (r := S) a.symbols b.symbols c.symbols h h'

theorem same {a b : Assembly} (h : b.symbols = a.symbols) : OnTables S a b := by
  unfold OnTables
  rw [h]
  exact refl (r := S) a.symbols

include h

theorem settling : Settling (OnTables S) where
  asked hasked := h.note (.ofAsked hasked)
  reportAt _ _ _ := same rfl
  assign a slot key v := h.assign a.symbols slot key v
  setEntries _ _ _ := same rfl
  patchBytes _ _ _ _ := same rfl
  setPending _ _ := same rfl

theorem upkeep : Upkeep (OnTables S) where
  note hn _ := h.note hn
  define a name kind value := by
    rcases a.define_cases name kind (some value) with ⟨fault, hd⟩ | ⟨hfree, hd⟩ <;> rw [hd]
    · exact same rfl
    · exact h.define kind (some value) a.pos hfree
  setVar a name value := by
    unfold Assembly.setVar
    dsimp only
    split
    · exact same rfl
    · next hs => exact h.storeVar value a.pos hs
  awaitEqu {a b e label slot} _ hd := by
    rcases a.define_cases label .equ none with ⟨fault, hd'⟩ | ⟨hfree, hd'⟩ <;> cases hd.symm.trans hd'
    exact h.define .equ none a.pos hfree
  shift hs := by
    obtain ⟨_, rfl⟩ := hs.eq
    exact same rfl
  emit {a code} _ := by
    obtain ⟨_, _, he⟩ := a.emit_eq code
    exact same (by rw [he])
  setOpened _ _ := same rfl
  override {a b code} i _ he := by
    obtain ⟨_, _, _, _, hm⟩ := Assembly.override_eq he i (a.segmentSize i.segment) a.pending.size
    exact same (by rw [hm])
  addMacro a d := h.addMacro a.symbols d
  addStruct a d _ := h.addStruct a.symbols d
  modifyTop a f hf := h.modifyTop a.symbols f hf
  enterScope a kind pass := IsTrans.trans (r := S) _ _ _ (h.openScope a.symbols kind) (h.modifyTop _ _ fun _ => rfl)
  openLoop a key v := h.openLoop a.symbols _
  assign a id key v := h.assign a.symbols (.scope id) key v
  resolveScope := h.settling.resolveScope
  closeScope a := h.closeScope a.symbols _
  enterModule he := h.enterModule he
  leaveModule a := h.leaveModule a.symbols

theorem runPragma (p : Pragma) : (runPragma none p).Keeps (OnTables S) :=
  h.upkeep.anyPragma (fun _ _ _ => same rfl) (fun _ _ => same rfl) none p

theorem call (call : Call) (a : Assembly) : (call.next a).Keeps (OnTables S) a :=
  h.upkeep.housekeeping.next (.inr fun _ _ => same rfl) fun line _ => h.upkeep.single a line
    (fun p _ _ => h.runPragma p) fun _ d _ => h.upkeep.invokeStruct d (fun _ _ p _ => h.runPragma p) _

end Bookkeeping

end SpectrumAsm
