/-
The names of modules and of what is in them.

All names are in capital letters, and no symbol of a module is there twice (`SymbolTable.WellNamed`). The
qualifier of a module is that of the one around it with its own name behind.
-/
import SpectrumAsm.Proofs.ConstantTables
import SpectrumAsm.Proofs.DottedNames
import SpectrumAsm.Proofs.Places
import SpectrumAsm.Proofs.TableChanges

namespace SpectrumAsm

open List Text

/-- Names in capital letters, none of them twice. -/
def NameTable.Capital {α : Type} (t : NameTable α) : Prop := t.keys.Nodup ∧ ∀ key ∈ t.keys, upcase key = key

theorem NameTable.Capital.insert {α : Type} {t : NameTable α} (h : t.Capital) (name : String) (value : α)
    (hnew : t.contains (upcase name) = false) : (t.insert (upcase name) value).Capital := by
  have hget : t.get? (upcase name) = none := Option.not_isSome_iff_eq_none.1 (by
    unfold contains at hnew
    rw [hnew]
    exact Bool.false_ne_true)
  refine ⟨nodup_keys_insert h.1 hget value, fun key hkey => ?_⟩
  rw [keys_insert_new t value hnew, mem_append, mem_singleton] at hkey
  rcases hkey with hkey | rfl
  · exact h.2 key hkey
  · exact upcase_upcase name

theorem NameTable.Capital.modify {α : Type} {t : NameTable α} (h : t.Capital) (name : String) (f : α → α) :
    (t.modify name f).Capital := by
  unfold Capital
  rwa [keys_modify]

/-- The modules are nested, and all names are in capital letters. -/
structure SymbolTable.WellNamed (t : SymbolTable) : Prop extends ModulesNested t where
  capital : ∀ {id : Nat} {m : Module}, t.modules[id]? = some m → upcase m.name = m.name ∧ m.symbols.Capital

namespace SymbolTable.WellNamed

variable {t u : SymbolTable}

theorem new (explicitLocals : Bool) : (SymbolTable.new explicitLocals).WellNamed := by
  refine ⟨.new explicitLocals, fun {id m} hm => ?_⟩
  cases id with
  | zero =>
    cases hm
    exact ⟨rfl, nodup_nil, fun key hkey => absurd hkey not_mem_nil⟩
  | succ id => cases hm

theorem ofModules (h : t.WellNamed) (hm : u.modules = t.modules) (hc : u.current < t.modules.size) : u.WellNamed :=
  ⟨h.ofFrame (by rw [hm]) hc, fun hu => h.capital (hm ▸ hu)⟩

theorem modifyModule (h : t.WellNamed) (id : Nat) {f : Module → Module} (hf : ∀ m, (f m).frame = m.frame)
    (hs : ∀ m, t.modules[id]? = some m → (f m).symbols.Capital) : (t.modifyModule id f).WellNamed := by
  refine ⟨h.ofFrame (map_modify_of_eq hf) h.current, fun {j m} hm => ?_⟩
  simp only [SymbolTable.modifyModule, Array.getElem?_modify] at hm
  split at hm
  · next hj =>
    obtain ⟨m, hold, rfl⟩ := Option.map_eq_some_iff.1 hm
    have hname : (f m).name = m.name := congrArg (·.1) (hf m)
    exact ⟨hname ▸ (h.capital hold).1, hs m (hj ▸ hold)⟩
  · exact h.capital hm

theorem symbolsAt_module {id : Nat} {m : Module} (hm : t.modules[id]? = some m) :
    t.symbolsAt (.module id) = m.symbols := by
  simp [symbolsAt, hm]

section
variable (h : t.WellNamed)
include h

theorem modifySymbols (slot : Slot) {f : NameTable Symbol → NameTable Symbol}
    (hf : (t.symbolsAt slot).Capital → (f (t.symbolsAt slot)).Capital) : (t.modifySymbols slot f).WellNamed := by
  cases slot with
  | scope id => exact h.ofModules rfl h.current
  | module id =>
    refine h.modifyModule id (fun _ => rfl) fun m hm => ?_
    rw [symbolsAt_module hm] at hf
    exact hf (h.capital hm).2

theorem addSymbol {slot : Slot} {s : Symbol} {name : String} (hs : s.name = upcase name)
    (hfree : t.isTaken slot (upcase name) = false) : (t.addSymbol slot s).WellNamed :=
  h.modifySymbols slot fun hc => by
    rw [hs]
    exact hc.insert name s hfree

theorem assign (slot : Slot) (key : String) (value : Value) : (t.assign slot key value).WellNamed :=
  h.modifySymbols slot fun hc => hc.modify key _

theorem storeVar (slot : Slot) (name : String) (value : Value) (pos : Position) :
    (t.storeVar slot (upcase name) value pos).WellNamed := by
  unfold SymbolTable.storeVar
  split
  · exact h.assign slot _ value
  · next hfree => exact h.addSymbol rfl (Bool.eq_false_iff.2 hfree)

theorem enterModule {name : String} (he : t.enterModule name = .ok u) : u.WellNamed := by
  obtain ⟨outer, houter, -, -, hsize, hadded, hchanged, hsame⟩ := h.modules_enterModule he
  refine ⟨h.toModulesNested.enterModule he, fun {j m} hm => ?_⟩
  have hlt := (Array.getElem?_eq_some_iff.1 hm).1
  by_cases hj : j = t.current
  · rw [hj, hchanged] at hm
    cases hm
    have hnames := h.capital houter
    exact hnames
  by_cases hj' : j = t.modules.size
  · rw [hj', hadded] at hm
    cases hm
    exact ⟨upcase_upcase name, nodup_nil, fun key hkey => absurd hkey not_mem_nil⟩
  · rw [hsame j (by omega) hj] at hm
    exact h.capital hm

theorem leaveModule : t.leaveModule.WellNamed := by
  refine ⟨h.toModulesNested.leaveModule, fun {id m} hm => ?_⟩
  obtain ⟨_, hleft⟩ := t.leaveModule_eq
  rw [hleft] at hm
  exact h.capital hm

end

theorem bookkeeping : Bookkeeping fun t u : SymbolTable => t.WellNamed → u.WellNamed where
  used _ _ h := h.ofModules rfl h.current
  define _ _ _ hfree h := h.addSymbol rfl hfree
  storeVar value pos _ h := h.storeVar _ _ value pos
  assign _ slot key value h := h.assign slot key value
  addMacro _ _ h := h.modifyModule _ (fun _ => rfl) fun _ hm => (h.capital hm).2
  addStruct _ _ h := h.modifyModule _ (fun _ => rfl) fun _ hm => (h.capital hm).2
  modifyTop t f _ h := by
    unfold modifyTop
    split
    · exact h.ofModules rfl h.current
    · exact h
  openScope _ _ h := h.ofModules rfl h.current
  openLoop _ _ h := h.ofModules rfl h.current
  closeScope t keep h := by
    obtain ⟨_, hclosed, -⟩ := t.closeScope_eq keep
    rw [hclosed]
    exact h.ofModules rfl h.current
  enterModule he h := h.enterModule he
  leaveModule _ h := h.leaveModule

/-! ## Qualifiers -/

theorem qualifier_root (h : t.WellNamed) : t.qualifier 0 = "" := by
  unfold qualifier
  rw [h.moduleChain_root]
  rfl

theorem qualifier_inner (h : t.WellNamed) {id p : Nat} {m : Module} (hm : t.modules[id]? = some m)
    (hp : m.parent = some p) : t.qualifier id = t.qualifier p ++ (m.name ++ ".") := by
  have hid : (id != 0) = true := by
    rw [bne_iff_ne]
    have hlt := h.parent_lt (p := p) (by rw [hm, Option.bind_some, hp])
    omega
  unfold qualifier
  rw [h.moduleChain_inner hm hp, filter_cons_of_pos (p := (· != 0)) hid,
    filterMap_cons_some (by rw [hm]; rfl)]
  simp

end SymbolTable.WellNamed

end SpectrumAsm
