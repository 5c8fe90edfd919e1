/-
What a line may do to the symbol table.

A line enters symbols into places that are open, sets variables of such places, and notes things down about
the innermost scope or the current module. It opens and closes nothing, and a symbol that was entered stays.
-/
import SpectrumAsm.SymbolTable.Define

namespace SpectrumAsm

open List

variable {f : Scope → Scope} {key : String}

/-- What never changes about a scope once it counts. -/
def Scope.frame (s : Scope) : ScopeKind × Option Nat × Int64 := (s.kind, s.parent, s.counter)

/-- What changes about a module only when a module inside it opens. -/
def Module.frame (m : Module) : String × Option Nat × NameTable Nat := (m.name, m.parent, m.children)

/-- A symbol later on: it is of the same kind, and it still has a value if it had one. -/
structure Symbol.Remains (s s' : Symbol) : Prop where
  kind : s'.kind = s.kind
  value : s.value.isSome = true → s'.value.isSome = true

theorem Symbol.Remains.refl (s : Symbol) : s.Remains s := ⟨rfl, id⟩

theorem Symbol.Remains.trans {s s' s'' : Symbol} (h : s.Remains s') (h' : s'.Remains s'') : s.Remains s'' :=
  ⟨h'.kind.trans h.kind, h'.value ∘ h.value⟩

section
variable {α β : Type} {xs : Array α} {i : Nat} {f : α → α}

theorem bind_modify_of_eq {g : α → Option β} (h : ∀ x, g (f x) = g x) (k : Nat) :
    (xs.modify i f)[k]?.bind g = xs[k]?.bind g := by
  rw [Array.getElem?_modify]
  split
  · cases xs[k]? with
    | none => rfl
    | some x => exact h x
  · rfl

theorem map_modify_of_eq {g : α → β} (h : ∀ x, g (f x) = g x) : (xs.modify i f).map g = xs.map g := by
  apply Array.ext_getElem?
  intro k
  rw [Array.getElem?_map, Array.getElem?_map, Option.map_eq_bind, Option.map_eq_bind]
  exact bind_modify_of_eq (g := some ∘ g) (fun x => congrArg some (h x)) k

theorem getD_push_of_eq {x : α} {g : α → β} {y : β} (h : g x = y) (k : Nat) :
    ((xs.push x)[k]?.map g).getD y = (xs[k]?.map g).getD y := by
  rw [Array.getElem?_push]
  split
  · next hk => simp [hk, h]
  · rfl

end

namespace SymbolTable

variable {t u v : SymbolTable} {slot other : Slot} {name : String}

/-- How the pass with scope `id` is being left, if it is. -/
def exit? (t : SymbolTable) (id : Nat) : Option LoopExit := t.scopes[id]?.bind (·.exit)

theorem topScope?_exit (t : SymbolTable) : t.topScope?.bind (·.exit) = t.top?.bind t.exit? := by
  unfold topScope?
  cases t.top? <;> rfl

theorem exit?_modifyScope (hf : ∀ s, (f s).exit = s.exit) (k id : Nat) :
    (t.modifyScope k f).exit? id = t.exit? id := bind_modify_of_eq hf id

theorem parent?_modifyScope (t : SymbolTable) (k : Nat) (hf : ∀ s, (f s).parent = s.parent)
    (id : Nat) : (t.modifyScope k f).parent? id = t.parent? id := bind_modify_of_eq hf id

theorem parent?_openScope (t : SymbolTable) (kind : ScopeKind) (id : Nat) :
    (t.openScope kind).parent? id = if id = t.scopes.size then t.top? else t.parent? id := by
  unfold parent? openScope
  rw [Array.getElem?_push]
  split <;> rfl

/-! ## Opening and closing -/

/-- A scope that closes may lose its symbols. -/
theorem closeScope_eq (t : SymbolTable) (keep : Bool) : ∃ scopes,
    t.closeScope keep = { t with active := t.active.tail, scopes } ∧
      (scopes = t.scopes ∨ ∃ id, t.top? = some id ∧ scopes = t.scopes.modify id fun s => { s with symbols := {} }) := by
  obtain ⟨modules, scopes, _ | ⟨id, rest⟩, current, used, explicitLocals⟩ := t
  · exact ⟨scopes, rfl, .inl rfl⟩
  · cases keep with
    | true => exact ⟨scopes, rfl, .inl rfl⟩
    | false => exact ⟨_, rfl, .inr ⟨id, rfl, rfl⟩⟩

/-- A module is entered nowhere, or it is new in the current one. -/
theorem enterModule_eq (h : t.enterModule name = .ok u) : (t.modules[t.current]? = none ∧ u = t) ∨
    ∃ outer, t.modules[t.current]? = some outer ∧ outer.children.get? (Text.upcase name) = none ∧
      u = { t with
        modules := (t.modules.push { name := Text.upcase name, parent := some t.current }).modify t.current
          fun m => { m with children := m.children.insert (Text.upcase name) t.modules.size }
        current := t.modules.size } := by
  unfold enterModule at h
  dsimp only at h
  split at h
  · next hnone => cases h; exact .inl ⟨hnone, rfl⟩
  · next outer houter =>
    split at h
    · cases h
    · next hfree =>
      cases h
      exact .inr ⟨outer, houter, Option.not_isSome_iff_eq_none.1 hfree, rfl⟩

theorem leaveModule_eq (t : SymbolTable) : ∃ current, t.leaveModule = { t with current } := by
  unfold leaveModule
  split
  · exact ⟨_, rfl⟩
  · exact ⟨t.current, rfl⟩

theorem symbolsAt_congr (hs : u.scopes.map (·.symbols) = t.scopes.map (·.symbols))
    (hm : u.modules.map (·.symbols) = t.modules.map (·.symbols)) (slot : Slot) :
    u.symbolsAt slot = t.symbolsAt slot := by
  cases slot <;> simp only [symbolsAt, ← Array.getElem?_map, hs, hm]

theorem symbolsAt_modifyTop (hf : ∀ s, (f s).symbols = s.symbols) (slot : Slot) :
    (t.modifyTop f).symbolsAt slot = t.symbolsAt slot := by
  unfold modifyTop
  split
  · exact symbolsAt_congr (u := t.modifyScope _ f) (map_modify_of_eq hf) rfl slot
  · rfl

theorem symbolsAt_openScope (t : SymbolTable) (kind : ScopeKind) (slot : Slot) :
    (t.openScope kind).symbolsAt slot = t.symbolsAt slot := by
  cases slot with
  | scope id => exact getD_push_of_eq rfl id
  | module id => rfl

theorem symbolsAt_enterModule (h : t.enterModule name = .ok u) (slot : Slot) : u.symbolsAt slot = t.symbolsAt slot := by
  rcases enterModule_eq h with ⟨-, rfl⟩ | ⟨_, -, -, rfl⟩
  · rfl
  · cases slot with
    | scope id => rfl
    | module id =>
      simp only [symbolsAt]
      rw [← Array.getElem?_map, map_modify_of_eq fun _ => by rfl, Array.getElem?_map]
      exact getD_push_of_eq rfl id

/-! ## Changes of one place -/

/-- The same scopes and modules are there and open, whatever their symbols are. -/
structure SameFrames (t u : SymbolTable) : Prop where
  active : u.active = t.active
  current : u.current = t.current
  frames : u.scopes.map Scope.frame = t.scopes.map Scope.frame
  modules : u.modules.map Module.frame = t.modules.map Module.frame

namespace SameFrames

variable {t u v : SymbolTable}

theorem trans (h : SameFrames t u) (h' : SameFrames u v) : SameFrames t v where
  active := h'.active.trans h.active
  current := h'.current.trans h.current
  frames := h'.frames.trans h.frames
  modules := h'.modules.trans h.modules

theorem varSlots (h : SameFrames t u) : u.varSlots = t.varSlots := by
  unfold SymbolTable.varSlots
  rw [h.active, h.current]

theorem top? (h : SameFrames t u) : u.top? = t.top? := by
  unfold SymbolTable.top?
  rw [h.active]

theorem nextScope (h : SameFrames t u) : u.nextScope = t.nextScope := by
  have hsize := congrArg Array.size h.frames
  simpa [SymbolTable.nextScope] using hsize

end SameFrames

section
variable (t : SymbolTable) (slot : Slot) (f : NameTable Symbol → NameTable Symbol)

theorem sameFrames_modifySymbols : t.SameFrames (t.modifySymbols slot f) := by
  cases slot with
  | scope id =>
    exact ⟨rfl, rfl, map_modify_of_eq (f := fun s : Scope => { s with symbols := f s.symbols }) fun _ => rfl, rfl⟩
  | module id =>
    exact ⟨rfl, rfl, rfl, map_modify_of_eq (f := fun m : Module => { m with symbols := f m.symbols }) fun _ => rfl⟩

end

theorem exit?_modifySymbols (t : SymbolTable) (slot : Slot) (f : NameTable Symbol → NameTable Symbol) (id : Nat) :
    (t.modifySymbols slot f).exit? id = t.exit? id := by
  cases slot with
  | scope k => exact exit?_modifyScope (f := fun s => { s with symbols := f s.symbols }) (fun _ => rfl) k id
  | module _ => rfl

theorem symbolsAt_modifySymbols_other (f : NameTable Symbol → NameTable Symbol)
    (h : other ≠ slot) : (t.modifySymbols slot f).symbolsAt other = t.symbolsAt other := by
  cases slot with
  | scope id =>
    cases other with
    | module k => rfl
    | scope k =>
      have hk : id ≠ k := fun he => h (by rw [he])
      simp [symbolsAt, modifySymbols, modifyScope, Array.getElem?_modify, if_neg hk]
  | module id =>
    cases other with
    | scope k => rfl
    | module k =>
      have hk : id ≠ k := fun he => h (by rw [he])
      simp [symbolsAt, modifySymbols, modifyModule, Array.getElem?_modify, if_neg hk]

theorem symbolsAt_modifySymbols_self (t : SymbolTable) (slot : Slot) (f : NameTable Symbol → NameTable Symbol) :
    (t.modifySymbols slot f).symbolsAt slot = f (t.symbolsAt slot) ∨
      (t.modifySymbols slot f).symbolsAt slot = {} ∧ t.symbolsAt slot = {} := by
  cases slot with
  | scope id =>
    simp only [symbolsAt, modifySymbols, modifyScope, Array.getElem?_modify, if_pos]
    cases t.scopes[id]? with
    | none => exact .inr ⟨rfl, rfl⟩
    | some s => exact .inl rfl
  | module id =>
    simp only [symbolsAt, modifySymbols, modifyModule, Array.getElem?_modify, if_pos]
    cases t.modules[id]? with
    | none => exact .inr ⟨rfl, rfl⟩
    | some m => exact .inl rfl

theorem labelSlot_mem_varSlots (t : SymbolTable) (key : String) : t.labelSlot key ∈ t.varSlots := by
  have hmodule : Slot.module t.current ∈ t.varSlots := mem_append_right _ (mem_singleton_self _)
  have hscope {id : Nat} (h : t.top? = some id) : Slot.scope id ∈ t.varSlots :=
    mem_append_left _ (mem_map_of_mem (mem_of_head? h))
  unfold labelSlot
  split
  · exact hmodule
  · next id htop =>
    split
    · split
      · exact hmodule
      · exact hscope htop
    · exact hscope htop

theorem varSlot_ok (h : t.varSlot key = .ok slot) :
    slot ∈ t.varSlots ∧ ∀ s, (t.symbolsAt slot).get? key = some s → s.kind = .var := by
  unfold varSlot at h
  split at h
  · next found hfound =>
    split at h
    · next s hs =>
      split at h
      · next hkind =>
        cases h
        refine ⟨mem_of_find?_eq_some hfound, fun s' hs' => ?_⟩
        rw [hs] at hs'
        cases hs'
        simpa using hkind
      · cases h
    · cases h
  · next hnone =>
    cases h
    have hmem : t.innermostSlot ∈ t.varSlots := by
      unfold innermostSlot
      split
      · next id htop =>
        exact mem_append_left _ (mem_map_of_mem (mem_of_head? htop))
      · exact mem_append_right _ (mem_singleton_self _)
    refine ⟨hmem, fun s hs => ?_⟩
    have := find?_eq_none.1 hnone _ hmem
    simp [isTaken, NameTable.contains, hs] at this

/-! ## Local changes -/

/-- `u` is `t` after changes of open places that open and close nothing. -/
structure Local (t u : SymbolTable) : Prop extends SameFrames t u where
  /-- only the innermost pass is left -/
  exits : ∀ id, t.top? ≠ some id → u.exit? id = t.exit? id
  /-- places that are not open stay as they are -/
  closed : ∀ slot, slot ∉ t.varSlots → u.symbolsAt slot = t.symbolsAt slot
  /-- no symbol is lost, and none but a variable changes -/
  kept : ∀ slot key s, (t.symbolsAt slot).get? key = some s →
    ∃ s', (u.symbolsAt slot).get? key = some s' ∧ s.Remains s' ∧ (s.kind ≠ .var → s' = s)

namespace Local

theorem ofSymbols (hframes : SameFrames t u) (hexits : ∀ id, t.top? ≠ some id → u.exit? id = t.exit? id)
    (hsymbols : ∀ slot, u.symbolsAt slot = t.symbolsAt slot) : Local t u :=
  ⟨hframes, hexits, fun slot _ => hsymbols slot,
    fun slot _ s hs => ⟨s, by rw [hsymbols]; exact hs, .refl s, fun _ => rfl⟩⟩

theorem refl (t : SymbolTable) : Local t t := ofSymbols ⟨rfl, rfl, rfl, rfl⟩ (fun _ _ => rfl) fun _ => rfl

theorem trans (h : Local t u) (h' : Local u v) : Local t v where
  toSameFrames := h.toSameFrames.trans h'.toSameFrames
  exits id hid := (h'.exits id (by rw [h.top?]; exact hid)).trans (h.exits id hid)
  closed slot hs := (h'.closed slot (by rw [h.varSlots]; exact hs)).trans (h.closed slot hs)
  kept slot key s hs := by
    obtain ⟨x, hx, hremains, hsame⟩ := h.kept slot key s hs
    obtain ⟨y, hy, hremains', hsame'⟩ := h'.kept slot key x hx
    exact ⟨y, hy, hremains.trans hremains', fun hv => (hsame' (hremains.kind ▸ hv)).trans (hsame hv)⟩

theorem used (t : SymbolTable) (used : List String) : Local t { t with used } :=
  ofSymbols ⟨rfl, rfl, rfl, rfl⟩ (fun _ _ => rfl) fun slot => by cases slot <;> rfl

theorem modifySymbols (hslot : slot ∈ t.varSlots) {f : NameTable Symbol → NameTable Symbol}
    (hf : ∀ key s, (t.symbolsAt slot).get? key = some s → ∃ s',
      (f (t.symbolsAt slot)).get? key = some s' ∧ s.Remains s' ∧ (s.kind ≠ .var → s' = s)) :
    Local t (t.modifySymbols slot f) where
  toSameFrames := t.sameFrames_modifySymbols slot f
  exits id _ := t.exit?_modifySymbols slot f id
  closed other ho := symbolsAt_modifySymbols_other f fun he => ho (he ▸ hslot)
  kept other key s hs := by
    by_cases he : other = slot
    · subst he
      rcases t.symbolsAt_modifySymbols_self other f with h | ⟨-, hnone⟩
      · rw [h]
        exact hf key s hs
      · rw [hnone] at hs
        cases hs
    · rw [symbolsAt_modifySymbols_other f he]
      exact ⟨s, hs, .refl s, fun _ => rfl⟩

theorem add (hslot : slot ∈ t.varSlots) {s : Symbol} (hfree : t.isTaken slot s.name = false) :
    Local t (t.addSymbol slot s) := by
  refine modifySymbols hslot fun key x hx => ⟨x, ?_, .refl x, fun _ => rfl⟩
  rw [NameTable.get?_insert_other _ _ ?_]
  · exact hx
  · rintro rfl
    simp [isTaken, NameTable.contains, hx] at hfree

theorem assign (hslot : slot ∈ t.varSlots)
    (hvar : ∀ s, (t.symbolsAt slot).get? key = some s → s.kind = .var) (value : Value) :
    Local t (t.assign slot key value) := by
  refine modifySymbols hslot fun name s hs => ?_
  by_cases he : name = key
  · subst he
    rw [NameTable.get?_modify_self, hs]
    exact ⟨_, rfl, ⟨rfl, fun _ => rfl⟩, fun hv => absurd (hvar s hs) hv⟩
  · rw [NameTable.get?_modify_other _ _ he]
    exact ⟨s, hs, .refl s, fun _ => rfl⟩

theorem storeVar (h : t.varSlot key = .ok slot) (value : Value) (pos : Position) :
    Local t (t.storeVar slot key value pos) := by
  obtain ⟨hslot, hvar⟩ := varSlot_ok h
  unfold SymbolTable.storeVar
  split
  · exact assign hslot hvar value
  · next hfree => exact add hslot (by simpa using hfree)

theorem modifyTop (hframe : ∀ s, (f s).frame = s.frame)
    (hsymbols : ∀ s, (f s).symbols = s.symbols) : Local t (t.modifyTop f) := by
  unfold SymbolTable.modifyTop
  split
  · next id htop =>
    have hsame := symbolsAt_modifyTop (t := t) hsymbols
    rw [SymbolTable.modifyTop, htop] at hsame
    refine ofSymbols ⟨rfl, rfl, map_modify_of_eq hframe, rfl⟩ (fun k hk => ?_) hsame
    have hne : id ≠ k := fun he => hk (he ▸ htop)
    simp [exit?, modifyScope, Array.getElem?_modify, if_neg hne]
  · exact refl t

theorem modifyModule (id : Nat) {f : Module → Module} (hframe : ∀ m, (f m).frame = m.frame)
    (hsymbols : ∀ m, (f m).symbols = m.symbols) : Local t (t.modifyModule id f) :=
  ofSymbols ⟨rfl, rfl, rfl, map_modify_of_eq hframe⟩ (fun _ _ => rfl) (symbolsAt_congr rfl (map_modify_of_eq hsymbols))

end Local

end SymbolTable

end SpectrumAsm
