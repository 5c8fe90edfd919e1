/-
What is seen where something is defined.

Some operations on a table go from scope to scope by the numbers of the scopes around, others through the open
scopes; since the places are nested, both see the same ones. A variable is written in the nearest place that
knows the name, a label in the innermost one: each is what the name means right after. Only where locals are
explicit, a procedure passes a label on to the module, and a scope that knows the name hides it there.
-/
import SpectrumAsm.Proofs.DottedNames
import SpectrumAsm.Proofs.Places

namespace SpectrumAsm.SymbolTable

open List Text Option NameTable

variable {kind : SymbolKind} {value : Option Value} {id : Nat} {s : Symbol}

/-! ## Operations -/

/-- What is done to a table. -/
inductive Operation : SymbolTable → SymbolTable → Prop where
  | openScope (t : SymbolTable) (kind : ScopeKind) : Operation t (t.openScope kind)
  | closeScope (t : SymbolTable) (keep : Bool) : Operation t (t.closeScope keep)
  | enterModule {t u : SymbolTable} {name : String} (h : t.enterModule name = .ok u) : Operation t u
  | leaveModule (t : SymbolTable) : Operation t t.leaveModule
  | define {t u : SymbolTable} {name : String} {kind : SymbolKind} {value : Option Value} {pos : Position}
    {slot : Slot} (h : t.define name kind value pos = .ok (slot, u)) : Operation t u
  | defineIn {t u : SymbolTable} {slot : Slot} {name : String} {kind : SymbolKind} {value : Option Value}
    {pos : Position} (h : t.defineIn slot name kind value pos = .ok u) : Operation t u
  | assign (t : SymbolTable) (slot : Slot) (key : String) (value : Value) : Operation t (t.assign slot key value)
  | setVar {t u : SymbolTable} {name : String} {value : Value} {pos : Position}
    (h : t.setVar name value pos = .ok u) : Operation t u
  /-- the innermost scope announces a name, counts or is left -/
  | modifyTop (t : SymbolTable) {f : Scope → Scope}
    (h : ∀ s, (f s).kind = s.kind ∧ (f s).parent = s.parent ∧ (f s).symbols = s.symbols) :
    Operation t (t.modifyTop f)
  | markUsed (t : SymbolTable) (name : String) : Operation t (t.markUsed name)
  | addMacro (t : SymbolTable) (d : MacroDef) : Operation t (t.addMacro d)
  | addStruct (t : SymbolTable) (d : StructDef) : Operation t (t.addStruct d)

/-- The tables that operations lead to. -/
def Built (t : SymbolTable) : Prop := ∃ explicitLocals, Relation.ReflTransGen Operation (new explicitLocals) t

variable {t u : SymbolTable} {slot : Slot} {name key : String} {pos : Position}

theorem defineIn_ok (h : t.defineIn slot name kind value pos = .ok u) :
    t.isTaken slot (upcase name) = false ∧ u = t.addSymbol slot ⟨upcase name, kind, value, pos⟩ := by
  unfold defineIn at h
  dsimp only at h
  split at h
  · cases h
  · next hfree => exact ⟨Bool.eq_false_iff.2 hfree, (Except.ok.inj h).symm⟩

theorem define_ok (h : t.define name kind value pos = .ok (slot, u)) :
    slot = t.labelSlot (upcase name) ∧ t.defineIn slot name kind value pos = .ok u := by
  unfold define at h
  dsimp only at h
  cases hd : t.defineIn (t.labelSlot (upcase name)) name kind value pos with
  | error => rw [hd] at h; cases h
  | ok => rw [hd] at h; cases h; exact ⟨rfl, hd⟩

theorem setVar_ok {value : Value} (h : t.setVar name value pos = .ok u) :
    ∃ slot, t.varSlot (upcase name) = .ok slot ∧ u = t.storeVar slot (upcase name) value pos := by
  unfold setVar at h
  dsimp only at h
  cases hs : t.varSlot (upcase name) with
  | error => rw [hs] at h; cases h
  | ok slot => rw [hs] at h; cases h; exact ⟨slot, rfl, rfl⟩

theorem Operation.wellNested (h : Operation t u) (ht : t.WellNested) : u.WellNested := by
  cases h with
  | openScope kind => exact ht.openScope kind
  | closeScope keep => exact ht.closeScope keep
  | enterModule he => exact ht.enterModule he
  | leaveModule => exact ht.leaveModule
  | define hd =>
    rw [(defineIn_ok (define_ok hd).2).2]
    exact ht.modifySymbols _ _
  | defineIn hd =>
    rw [(defineIn_ok hd).2]
    exact ht.modifySymbols _ _
  | assign slot key value => exact ht.modifySymbols slot _
  | setVar hs =>
    obtain ⟨slot, -, rfl⟩ := setVar_ok hs
    exact ht.storeVar slot _ _ _
  | modifyTop hf => exact ht.modifyTop fun s => (hf s).2.1
  | markUsed name =>
    unfold SymbolTable.markUsed
    split
    · exact ht
    · exact ht.used _
  | addMacro d | addStruct d => exact ht.modifyModule _ fun _ => rfl

theorem Built.wellNested (h : t.Built) : t.WellNested := by
  obtain ⟨explicitLocals, hops⟩ := h
  induction hops with
  | refl => exact .new explicitLocals
  | tail _ hop ih => exact hop.wellNested ih

/-! ## Chains and the open scopes -/

/-- The parent links of scopes and modules, and what is seen along them. -/
structure Chained (t : SymbolTable) : Prop where
  parents : ∀ id parent, t.parent? id = some parent → parent < id
  /-- the innermost scope and those around it are the open ones -/
  stack : t.chain t.top? = t.active
  /-- a module is found under its name in the one around it and nowhere else -/
  modules : ∀ id m, t.modules[id]? = some m → id ≠ 0 → ∃ p outer, m.parent = some p ∧ p < id ∧
    t.modules[p]? = some outer ∧ outer.children.get? m.name = some id ∧
    ∀ (j : Nat) other name, t.modules[j]? = some other → other.children.get? name = some id → j = p ∧ name = m.name
  children : ∀ (id : Nat) m name child, t.modules[id]? = some m → m.children.get? name = some child →
    ∃ inner, t.modules[child]? = some inner ∧ inner.parent = some id ∧ inner.name = name
  /-- a chain follows the parents to the end -/
  chain : ∀ id, t.chain (some id) = id :: t.chain (t.parent? id)
  /-- and that of a module ends with the outermost one -/
  moduleChain : ∀ id, id < t.modules.size → (t.moduleChain id).getLast? = some 0 ∧
    t.moduleChain id = id :: ((t.modules[id]?.bind (·.parent)).map t.moduleChain).getD []
  encloses : ∀ id, t.encloses t.top? id = t.active.contains id
  lookupScopes : ∀ name, t.lookupScopes t.top? name = t.active.findSome? fun id => (t.symbolsAt (.scope id)).get? name
  loopCounter : t.loopCounter? t.top? = (t.innermost? .pass).bind fun id => t.scopes[id]?.map (·.counter)
  varSlots : t.varSlots = (t.chain t.top?).map Slot.scope ++ [.module t.current]

theorem ModulesNested.moduleChain_last (h : t.ModulesNested) (hid : id < t.modules.size) :
    (t.moduleChain id).getLast? = some 0 := by
  induction id using Nat.strongRecOn with
  | ind id ih =>
    by_cases hzero : id = 0
    · rw [hzero, h.moduleChain_root]
      rfl
    · obtain ⟨p, outer, hp, hlt, hpm, -⟩ := h.inner (Array.getElem?_eq_getElem hid) hzero
      rw [h.moduleChain_inner (Array.getElem?_eq_getElem hid) hp, getLast?_cons,
        ih p hlt (Array.getElem?_eq_some_iff.1 hpm).1, getD_some]

theorem loopCounter?_find (t : SymbolTable) (scope : Option Nat) : t.loopCounter? scope =
    ((t.chain scope).find? fun id => (t.scopes[id]?.map (·.kind)) == some .pass).bind fun id =>
      t.scopes[id]?.map (·.counter) := by
  unfold loopCounter?
  induction t.chain scope with
  | nil => rfl
  | cons id ids ih =>
    rw [findSome?_cons, find?_cons, ih]
    cases hs : t.scopes[id]? with
    | none => rfl
    | some s =>
      by_cases hkind : s.kind = .pass
      · simp [hkind, hs]
      · have hother : (s.kind == .pass) = false := beq_eq_false_iff_ne.2 hkind
        simp [hother]

/-- Whoever follows the numbers of the scopes around sees the open scopes. -/
theorem Built.chained (h : t.Built) : t.Chained where
  parents := h.wellNested.parents
  stack := h.wellNested.stack
  modules id m hm hid := by
    obtain ⟨p, outer, hp, hlt, hpm, hget⟩ := h.wellNested.inner hm hid
    refine ⟨p, outer, hp, hlt, hpm, hget, fun j other name hj hchild => ?_⟩
    obtain ⟨inner, hinner, hparent, hname⟩ := h.wellNested.children hj hchild
    rw [hm] at hinner
    cases hinner
    rw [hp] at hparent
    exact ⟨(some.inj hparent).symm, hname.symm⟩
  children _ _ _ _ hm hchild := h.wellNested.children hm hchild
  chain := chain_cons h.wellNested.parents
  moduleChain id hid := by
    refine ⟨h.wellNested.moduleChain_last hid, ?_⟩
    cases hp : t.modules[id]?.bind (·.parent) with
    | none => rw [moduleChain, moduleOutward, hp]; rfl
    | some p =>
      obtain ⟨m, hm, hparent⟩ := bind_eq_some_iff.1 hp
      exact h.wellNested.moduleChain_inner hm hparent
  encloses id := by
    unfold encloses
    rw [h.wellNested.stack]
  lookupScopes name := by
    rw [lookupScopes_eq, h.wellNested.stack]
  loopCounter := by
    rw [loopCounter?_find, h.wellNested.stack]
    rfl
  varSlots := by
    rw [h.wellNested.stack]
    rfl

theorem Built.chained_pass : (((new true).openScope .proc).openScope .pass).Built ∧
    (((new true).openScope .proc).openScope .pass).Chained :=
  have hbuilt : (((new true).openScope .proc).openScope .pass).Built :=
    ⟨true, .tail (.single (.openScope _ .proc)) (.openScope _ .pass)⟩
  ⟨hbuilt, hbuilt.chained⟩

/-! ## Lookups -/

theorem resolveIn_own {path : List String} (h : (t.symbolsAt (.module id)).get? (".".intercalate path) = some s) :
    t.resolveIn id path = some s := by
  rw [get?_module] at h
  obtain ⟨m, hm, hs⟩ := bind_eq_some_iff.1 h
  cases path with
  | nil =>
    unfold resolveIn
    rw [hm]
    exact hs
  | cons part rest =>
    unfold resolveIn
    rw [hm]
    dsimp only
    rw [hs]

section
variable {ref : SymbolRef} (href : ref.rooted = false)
include href

theorem lookupHere_scope (hs : t.lookupScopes t.top? ref.joined = some s) : t.lookupHere ref = some s := by
  unfold lookupHere lookup
  rw [href, hs]
  rfl

theorem ScopesNested.lookupHere_nearest (h : t.ScopesNested)
    (hs : (t.varSlots.findSome? fun slot => (t.symbolsAt slot).get? ref.joined) = some s) :
    t.lookupHere ref = some s := by
  unfold varSlots at hs
  rw [findSome?_append, findSome?_map] at hs
  have hscopes : t.lookupScopes t.top? ref.joined =
      t.active.findSome? ((fun slot => (t.symbolsAt slot).get? ref.joined) ∘ Slot.scope) := by
    rw [lookupScopes_eq, h.stack]
    rfl
  rw [← hscopes] at hs
  cases hfound : t.lookupScopes t.top? ref.joined with
  | some s' =>
    rw [hfound, some_or] at hs
    rw [lookupHere_scope href hfound, hs]
  | none =>
    rw [hfound, none_or, findSome?_singleton] at hs
    unfold lookupHere lookup
    rw [href, hfound, if_neg Bool.false_ne_true, moduleChain, moduleOutward, findSome?_cons, resolveIn_own hs]

end

theorem WellNested.lookupHere_modifySymbols (h : t.WellNested) {ref : SymbolRef} (href : ref.rooted = false)
    {nearer farther : List Slot} (hsplit : t.varSlots = nearer ++ slot :: farther)
    (hnearer : ∀ other ∈ nearer, other ≠ slot ∧ t.isTaken other ref.joined = false)
    {f : NameTable Symbol → NameTable Symbol} (hs : (f (t.symbolsAt slot)).get? ref.joined = some s) :
    (t.modifySymbols slot f).lookupHere ref = some s := by
  refine (h.modifySymbols slot f).toScopesNested.lookupHere_nearest href ?_
  have hopen : slot ∈ t.varSlots := by
    rw [hsplit]
    exact mem_append_right _ mem_cons_self
  have hslots : (t.modifySymbols slot f).varSlots = nearer ++ slot :: farther := by
    rw [← hsplit]
    exact (t.sameFrames_modifySymbols slot f).varSlots
  have hnone : (nearer.findSome? fun other => ((t.modifySymbols slot f).symbolsAt other).get? ref.joined) = none := by
    refine findSome?_eq_none_iff.2 fun other hother => ?_
    obtain ⟨hne, hfree⟩ := hnearer other hother
    rw [symbolsAt_modifySymbols_other f hne]
    exact not_isSome_iff_eq_none.1 (Bool.eq_false_iff.1 hfree)
  rw [hslots, findSome?_append, hnone, none_or, findSome?_cons,
    symbolsAt_modifySymbols_open h hopen, hs]

theorem varSlots_innermost (t : SymbolTable) : ∃ farther, t.varSlots = t.innermostSlot :: farther := by
  unfold varSlots innermostSlot top?
  cases t.active with
  | nil => exact ⟨[], rfl⟩
  | cons id rest => exact ⟨_, rfl⟩

theorem varSlot_nearest (h : t.varSlot key = .ok slot) : ∃ nearer farther, t.varSlots = nearer ++ slot :: farther ∧
    ∀ other ∈ nearer, other ≠ slot ∧ t.isTaken other key = false := by
  unfold varSlot at h
  split at h
  · next found hfound =>
    obtain ⟨htaken, nearer, farther, hsplit, hfree⟩ := find?_eq_some_iff_append.1 hfound
    have hslot : found = slot := by
      split at h
      · split at h
        · exact Except.ok.inj h
        · cases h
      · cases h
    subst hslot
    refine ⟨nearer, farther, hsplit, fun other hother => ?_⟩
    have hother := hfree other hother
    rw [Bool.not_eq_true'] at hother
    refine ⟨?_, hother⟩
    rintro rfl
    rw [htaken] at hother
    cases hother
  · cases h
    obtain ⟨farther, hsplit⟩ := t.varSlots_innermost
    exact ⟨[], farther, hsplit, fun other hother => absurd hother not_mem_nil⟩

/-- The innermost scope is a procedure that leaves the name to the module. -/
def PassesOn (t : SymbolTable) (key : String) : Prop :=
  t.explicitLocals = true ∧ ∃ s, t.topScope? = some s ∧ s.kind = .proc ∧ s.locals.contains key = false

theorem labelSlot_cases (t : SymbolTable) (key : String) : t.PassesOn key ∧ t.labelSlot key = .module t.current ∨
      ¬ t.PassesOn key ∧ t.labelSlot key = t.innermostSlot := by
  unfold PassesOn labelSlot innermostSlot topScope?
  cases t.top? with
  | none => exact .inr ⟨fun ⟨_, s, hs, _⟩ => by simp at hs, rfl⟩
  | some id =>
    dsimp only [bind_some]
    cases t.scopes[id]? with
    | none => exact .inr ⟨fun ⟨_, s, hs, _⟩ => by simp at hs, rfl⟩
    | some s =>
      dsimp only
      split
      · next hguard =>
        simp only [Bool.and_eq_true, beq_iff_eq, Bool.not_eq_true'] at hguard
        exact .inl ⟨⟨hguard.1.1, s, rfl, hguard.1.2, hguard.2⟩, rfl⟩
      · next hguard =>
        refine .inr ⟨fun ⟨he, s', hs, hkind, hlocal⟩ => hguard ?_, rfl⟩
        cases hs
        rw [he, hkind, hlocal]
        rfl

section
variable {ref : SymbolRef} (h : t.WellNested) (href : ref.rooted = false)
include h href

theorem lookupHere_storeVar (hslot : t.varSlot ref.joined = .ok slot) (value : Value) (pos : Position) :
    ∃ s, ((t.storeVar slot ref.joined value pos).symbolsAt slot).get? ref.joined = some s ∧ s.kind = .var ∧
      s.value = some value ∧ (t.storeVar slot ref.joined value pos).lookupHere ref = some s := by
  obtain ⟨hopen, hvar⟩ := varSlot_ok hslot
  obtain ⟨nearer, farther, hsplit, hnearer⟩ := varSlot_nearest hslot
  unfold storeVar
  split
  · next htaken =>
    obtain ⟨s, hs⟩ := isSome_iff_exists.1 htaken
    have hget : ((t.symbolsAt slot).modify ref.joined fun s => { s with value := some value }).get? ref.joined =
        some { s with value := some value } := by
      rw [get?_modify_self, hs, map_some]
    refine ⟨{ s with value := some value }, ?_, hvar s hs, rfl, h.lookupHere_modifySymbols href hsplit hnearer hget⟩
    rw [assign, symbolsAt_modifySymbols_open h hopen, hget]
  · refine ⟨⟨ref.joined, .var, some value, pos⟩, ?_, rfl, rfl,
      h.lookupHere_modifySymbols href hsplit hnearer (get?_insert_self _ _ _)⟩
    rw [addSymbol, symbolsAt_modifySymbols_open h hopen, get?_insert_self]

theorem lookupHere_addSymbol (hs : s.name = ref.joined)
    (hfree : t.PassesOn ref.joined → t.lookupScopes t.top? ref.joined = none) :
    (t.addSymbol (t.labelSlot ref.joined) s).lookupHere ref = some s := by
  have hget (slot : Slot) : ((t.symbolsAt slot).insert s.name s).get? ref.joined = some s := by
    rw [hs, get?_insert_self]
  rcases t.labelSlot_cases ref.joined with ⟨hpass, hmodule⟩ | ⟨-, hinner⟩
  · have hnone := hfree hpass
    rw [lookupScopes_eq, h.stack, findSome?_eq_none_iff] at hnone
    have hsplit : t.varSlots = t.active.map Slot.scope ++ .module t.current :: [] := rfl
    rw [hmodule]
    refine h.lookupHere_modifySymbols href hsplit (fun other hother => ?_) (hget _)
    obtain ⟨id, hid, rfl⟩ := mem_map.1 hother
    refine ⟨Slot.noConfusion, ?_⟩
    unfold isTaken NameTable.contains
    rw [hnone id hid]
    rfl
  · obtain ⟨farther, hsplit⟩ := t.varSlots_innermost
    rw [hinner]
    exact h.lookupHere_modifySymbols href (hsplit.trans (nil_append _).symm)
      (fun other hother => absurd hother not_mem_nil) (hget _)

omit h in
theorem lookupHere_addSymbol_hidden {old : Symbol} (hpass : t.PassesOn ref.joined)
    (hold : t.lookupScopes t.top? ref.joined = some old) :
    (t.addSymbol (t.labelSlot ref.joined) s).lookupHere ref = some old := by
  rcases t.labelSlot_cases ref.joined with ⟨-, hmodule⟩ | ⟨hno, -⟩
  · rw [hmodule]
    refine lookupHere_scope href ?_
    have hchain : (t.addSymbol (.module t.current) s).chain t.top? = t.chain t.top? := chain_eq fun _ _ => rfl
    rw [lookupScopes_eq] at hold ⊢
    exact hchain ▸ hold
  · exact absurd hpass hno

end

/-- A variable that was set is what its name means. A new label or constant is, too, unless a procedure
passes it on to the module and an open scope knows its name: then the name keeps its meaning. -/
theorem Built.lookupHere_written (h : t.Built) (hplain : (SymbolRef.parse name).rooted = false) :
    (∀ value pos u, t.setVar name value pos = .ok u → ∃ slot s, t.varSlot (upcase name) = .ok slot ∧
      (u.symbolsAt slot).get? (upcase name) = some s ∧ s.kind = .var ∧ s.value = some value ∧
      u.lookupHere (.parse name) = some s) ∧ ∀ kind value pos slot u, t.define name kind value pos = .ok (slot, u) →
      (u.symbolsAt slot).get? (upcase name) = some ⟨upcase name, kind, value, pos⟩ ∧
      (¬ (t.PassesOn (upcase name) ∧ (t.lookupScopes t.top? (upcase name)).isSome = true) →
        u.lookupHere (.parse name) = some ⟨upcase name, kind, value, pos⟩) ∧
      ∀ old, t.PassesOn (upcase name) → t.lookupScopes t.top? (upcase name) = some old →
        u.lookupHere (.parse name) = some old := by
  have hkey := joined_parse hplain
  refine ⟨fun value pos u hset => ?_, fun kind value pos slot u hdef => ?_⟩
  · obtain ⟨slot, hslot, rfl⟩ := setVar_ok hset
    rw [← hkey] at hslot ⊢
    obtain ⟨s, hs⟩ := lookupHere_storeVar h.wellNested hplain hslot value pos
    exact ⟨slot, s, hslot, hs⟩
  · obtain ⟨rfl, hin⟩ := define_ok hdef
    obtain ⟨-, rfl⟩ := defineIn_ok hin
    rw [← hkey]
    refine ⟨?_, fun hfree => ?_, fun old hpass hold => lookupHere_addSymbol_hidden hplain hpass hold⟩
    · rw [addSymbol, symbolsAt_modifySymbols_labelSlot h.wellNested, get?_insert_self]
    · refine lookupHere_addSymbol h.wellNested hplain rfl fun hpass => ?_
      exact not_isSome_iff_eq_none.1 fun hsome => hfree ⟨hpass, hsome⟩

/-- A procedure with a variable, whose locals are explicit. -/
def explicitProc : SymbolTable := ((new true).openScope .proc).storeVar (.scope 0) "N" (.int 1) ⟨0, 1⟩

theorem Built.explicitProc : explicitProc.Built := by
  have hset : ((SymbolTable.new true).openScope .proc).setVar "n" (.int 1) ⟨0, 1⟩ = .ok SymbolTable.explicitProc := rfl
  exact ⟨true, .tail (.single (.openScope _ .proc)) (.setVar hset)⟩

theorem explicitProc_keeps : ∃ u, explicitProc.define "n" .label (some (.int 5)) ⟨0, 2⟩ = .ok (.module 0, u) ∧
    u.lookupHere (.parse "n") = some ⟨"N", .var, some (.int 1), ⟨0, 1⟩⟩ :=
  ⟨_, rfl, ((@Built.lookupHere_written explicitProc "n" .explicitProc rfl).2 .label (some (.int 5)) ⟨0, 2⟩ _ _ rfl).2.2
    _ ⟨rfl, _, rfl, rfl, rfl⟩ rfl⟩

/-- A label of that procedure that it did not announce is not what its name means. -/
theorem explicitProc_hides : ¬ ∀ (t u : SymbolTable) (name : String) (kind : SymbolKind) (value : Value)
    (pos : Position) (slot : Slot), t.Built → (SymbolRef.parse name).rooted = false →
    t.define name kind (some value) pos = .ok (slot, u) →
    ∃ s, u.lookupHere (.parse name) = some s ∧ s.value = some value := by
  intro hall
  obtain ⟨s, hs, hvalue⟩ := hall explicitProc _ "n" .label (.int 5) ⟨0, 2⟩ (.module 0) .explicitProc rfl rfl
  have hlookup : s.value = some (.int 1) := by
    cases hs
    rfl
  rw [hlookup] at hvalue
  revert hvalue
  decide

end SpectrumAsm.SymbolTable
