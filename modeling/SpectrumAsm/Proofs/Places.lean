/-
How the places of a symbol table are nested.

Scopes and modules are numbered as they open, so each has a greater number than the one around it. The open
scopes are the innermost one and those around it, and a module is found under its name in the one around it
(`SymbolTable.WellNested`).
-/
import SpectrumAsm.Proofs.Structures

namespace SpectrumAsm

open Array Text Option

variable {id p : Nat} {m : Module} {name : String} {a : Assembly} {t : SymbolTable}

namespace SymbolTable

/-- Modules are numbered from the outside inwards, each is found under its name in the one around it,
and the current one is there. -/
structure ModulesNested (t : SymbolTable) : Prop where
  root : ∃ m, t.modules[0]? = some m ∧ m.parent = none ∧ m.name = ""
  inner : ∀ {id : Nat} {m : Module}, t.modules[id]? = some m → id ≠ 0 →
    ∃ p outer, m.parent = some p ∧ p < id ∧ t.modules[p]? = some outer ∧ outer.children.get? m.name = some id
  children : ∀ {id : Nat} {m : Module} {name : String} {child : Nat}, t.modules[id]? = some m →
    m.children.get? name = some child →
    ∃ inner, t.modules[child]? = some inner ∧ inner.parent = some id ∧ inner.name = name
  current : t.current < t.modules.size

/-- Scopes are numbered from the outside inwards, and the open ones are the innermost with all those
around it. -/
structure ScopesNested (t : SymbolTable) : Prop where
  parents : ∀ id parent, t.parent? id = some parent → parent < id
  active : ∀ id ∈ t.active, id < t.scopes.size
  stack : t.chain t.top? = t.active

/-- The places of a table lie inside each other. -/
structure WellNested (t : SymbolTable) : Prop extends ModulesNested t, ScopesNested t

variable {u : SymbolTable}

/-! ## Modules -/

theorem module_ofFrame (h : u.modules.map Module.frame = t.modules.map Module.frame) {j : Nat}
    (hm : t.modules[j]? = some m) :
    ∃ m', u.modules[j]? = some m' ∧ m'.name = m.name ∧ m'.parent = m.parent ∧
      ∀ key child, m.children.get? key = some child → m'.children.get? key = some child := by
  have hframe : u.modules[j]?.map Module.frame = t.modules[j]?.map Module.frame := by
    rw [← getElem?_map, ← getElem?_map, h]
  rw [hm, map_some, map_eq_some_iff] at hframe
  obtain ⟨m', hm', hsame⟩ := hframe
  simp only [Module.frame, Prod.mk.injEq] at hsame
  obtain ⟨hn, hp, hchildren⟩ := hsame
  exact ⟨m', hm', hn, hp, fun key child hchild => by rw [hchildren, hchild]⟩

namespace ModulesNested

theorem new (explicitLocals : Bool) : (SymbolTable.new explicitLocals).ModulesNested := by
  have honly {id : Nat} {m : Module} (h : (SymbolTable.new explicitLocals).modules[id]? = some m) :
      id = 0 ∧ m = { name := "", parent := none } := by
    cases id with
    | zero => cases h; exact ⟨rfl, rfl⟩
    | succ id => cases h
  refine ⟨⟨_, rfl, rfl, rfl⟩, fun h hid => absurd (honly h).1 hid, fun h hc => ?_, Nat.zero_lt_one⟩
  rw [(honly h).2] at hc
  cases hc

section
variable (h : t.ModulesNested)
include h

section
variable (hkeep : ∀ {j : Nat} {m : Module}, t.modules[j]? = some m → ∃ m', u.modules[j]? = some m' ∧ m'.name = m.name ∧
  m'.parent = m.parent ∧ ∀ key child, m.children.get? key = some child → m'.children.get? key = some child)
include hkeep

theorem root_kept : ∃ m, u.modules[0]? = some m ∧ m.parent = none ∧ m.name = "" := by
  obtain ⟨m, hm, hp, hn⟩ := h.root
  obtain ⟨m', hm', hn', hp', -⟩ := hkeep hm
  exact ⟨m', hm', by rw [hp', hp], by rw [hn', hn]⟩

theorem inner_kept (hm : t.modules[id]? = some m) (hid : id ≠ 0) :
    ∃ p outer, m.parent = some p ∧ p < id ∧ u.modules[p]? = some outer ∧ outer.children.get? m.name = some id := by
  obtain ⟨p, outer, hp, hlt, houter, hget⟩ := h.inner hm hid
  obtain ⟨outer', houter', -, -, hchildren⟩ := hkeep houter
  exact ⟨p, outer', hp, hlt, houter', hchildren _ _ hget⟩

theorem children_kept {child : Nat} (hm : t.modules[id]? = some m) (hchild : m.children.get? name = some child) :
    ∃ inner, u.modules[child]? = some inner ∧ inner.parent = some id ∧ inner.name = name := by
  obtain ⟨inner, hin, hp, hn⟩ := h.children hm hchild
  obtain ⟨inner', hin', hn', hp', -⟩ := hkeep hin
  exact ⟨inner', hin', by rw [hp', hp], by rw [hn', hn]⟩

end

theorem ofFrame (hm : u.modules.map Module.frame = t.modules.map Module.frame) (hc : u.current < t.modules.size) :
    u.ModulesNested := by
  have hsize : u.modules.size = t.modules.size := by
    simpa only [size_map] using congrArg size hm
  refine ⟨h.root_kept (module_ofFrame hm), fun hu hid => ?_, fun hu hchild => ?_, hsize ▸ hc⟩
  · obtain ⟨m, hold, hn, hp, -⟩ := module_ofFrame hm.symm hu
    rw [← hn, ← hp]
    exact h.inner_kept (module_ofFrame hm) hold hid
  · obtain ⟨m, hold, -, -, hchildren⟩ := module_ofFrame hm.symm hu
    exact h.children_kept (module_ofFrame hm) hold (hchildren _ _ hchild)

theorem modules_enterModule (he : t.enterModule name = .ok u) :
    ∃ outer, t.modules[t.current]? = some outer ∧ outer.children.get? (upcase name) = none ∧
      u.current = t.modules.size ∧ u.modules.size = t.modules.size + 1 ∧
      u.modules[t.modules.size]? = some { name := upcase name, parent := some t.current } ∧
      u.modules[t.current]? = some { outer with children := outer.children.insert (upcase name) t.modules.size } ∧
      ∀ j : Nat, j < t.modules.size → j ≠ t.current → u.modules[j]? = t.modules[j]? := by
  have hcurrent := h.current
  rcases enterModule_eq he with ⟨hnone, -⟩ | ⟨outer, houter, hnew, rfl⟩
  · exact absurd hcurrent (Nat.not_lt.2 (getElem?_eq_none_iff.1 hnone))
  refine ⟨outer, houter, hnew, rfl, ?_, ?_, ?_, fun j hj hne => ?_⟩
  · rw [size_modify, size_push]
  · rw [getElem?_modify, if_neg (Nat.ne_of_lt hcurrent), getElem?_push, if_pos rfl]
  · rw [getElem?_modify, if_pos rfl, getElem?_push, if_neg (Nat.ne_of_lt hcurrent), houter]
    rfl
  · rw [getElem?_modify, if_neg (Ne.symm hne), getElem?_push, if_neg (Nat.ne_of_lt hj)]

theorem enterModule (he : t.enterModule name = .ok u) : u.ModulesNested := by
  obtain ⟨outer, houter, hnew, hin, hsize, hadded, hchanged, hsame⟩ := h.modules_enterModule he
  have hcurrent := h.current
  have hcases {j : Nat} {m : Module} (hm : u.modules[j]? = some m) :
      j = t.modules.size ∧ m = { name := upcase name, parent := some t.current } ∨
      j = t.current ∧ m = { outer with children := outer.children.insert (upcase name) t.modules.size } ∨
      t.modules[j]? = some m := by
    have hlt := (Array.getElem?_eq_some_iff.1 hm).1
    by_cases hj : j = t.current
    · rw [hj, hchanged] at hm
      exact .inr (.inl ⟨hj, (some.inj hm).symm⟩)
    by_cases hj' : j = t.modules.size
    · rw [hj', hadded] at hm
      exact .inl ⟨hj', (some.inj hm).symm⟩
    · rw [hsame j (by omega) hj] at hm
      exact .inr (.inr hm)
  -- an old module keeps its name and its place
  have hkeep {j : Nat} {m : Module} (hm : t.modules[j]? = some m) :
      ∃ m', u.modules[j]? = some m' ∧ m'.name = m.name ∧ m'.parent = m.parent ∧
        ∀ key child, m.children.get? key = some child → m'.children.get? key = some child := by
    by_cases hj : j = t.current
    · subst hj
      rw [houter] at hm
      cases hm
      refine ⟨_, hchanged, rfl, rfl, fun key child hchild => ?_⟩
      have hkey : key ≠ upcase name := by
        rintro rfl
        rw [hnew] at hchild
        cases hchild
      rw [NameTable.get?_insert_other _ _ hkey, hchild]
    · have hlt := (Array.getElem?_eq_some_iff.1 hm).1
      exact ⟨m, by rw [hsame j hlt hj, hm], rfl, rfl, fun _ _ hchild => hchild⟩
  refine ⟨h.root_kept hkeep, fun hu hid => ?_, fun hu hchild => ?_, ?_⟩
  · rcases hcases hu with ⟨rfl, rfl⟩ | ⟨rfl, rfl⟩ | hm
    · exact ⟨t.current, _, rfl, hcurrent, hchanged, NameTable.get?_insert_self _ _ _⟩
    · exact (h.inner_kept hkeep houter hid :)
    · exact h.inner_kept hkeep hm hid
  · rcases hcases hu with ⟨rfl, rfl⟩ | ⟨rfl, rfl⟩ | hm
    · cases hchild
    · rename_i key child
      by_cases hkey : key = upcase name
      · subst hkey
        rw [NameTable.get?_insert_self] at hchild
        cases hchild
        exact ⟨_, hadded, rfl, rfl⟩
      · rw [NameTable.get?_insert_other _ _ hkey] at hchild
        exact h.children_kept hkeep houter hchild
    · exact h.children_kept hkeep hm hchild
  · rw [hsize, hin]
    exact Nat.lt_succ_self _

theorem parent_lt (hp : t.modules[id]?.bind (·.parent) = some p) : p < id := by
  obtain ⟨m, hm, hparent⟩ := bind_eq_some_iff.1 hp
  by_cases hid : id = 0
  · obtain ⟨root, hroot, hnone, -⟩ := h.root
    rw [hid, hroot] at hm
    cases hm
    rw [hnone] at hparent
    cases hparent
  · obtain ⟨p', -, hp', hlt, -⟩ := h.inner hm hid
    rw [hparent] at hp'
    cases hp'
    exact hlt

theorem leaveModule : t.leaveModule.ModulesNested := by
  unfold SymbolTable.leaveModule
  split
  · next p hp => exact h.ofFrame rfl (Nat.lt_trans (h.parent_lt hp) h.current)
  · exact h

theorem moduleOutward_eq {n : Nat} (hn : id < n) : t.moduleOutward n id = t.moduleChain id := by
  induction id using Nat.strongRecOn generalizing n with
  | ind id ih =>
    cases n with
    | zero => exact absurd hn (Nat.not_lt_zero id)
    | succ n =>
      unfold moduleChain moduleOutward
      cases hp : t.modules[id]?.bind (·.parent) with
      | none => rfl
      | some p =>
        have hlt := h.parent_lt hp
        dsimp only
        rw [ih p hlt hlt, ih p hlt (by omega)]

theorem moduleChain_inner (hm : t.modules[id]? = some m) (hp : m.parent = some p) :
    t.moduleChain id = id :: t.moduleChain p := by
  have hparent : t.modules[id]?.bind (·.parent) = some p := by rw [hm, bind_some, hp]
  unfold moduleChain
  conv => lhs; unfold moduleOutward
  rw [hparent]
  dsimp only
  rw [h.moduleOutward_eq (h.parent_lt hparent)]
  rfl

theorem moduleChain_root : t.moduleChain 0 = [0] := by
  obtain ⟨m, hm, hp, -⟩ := h.root
  simp [moduleChain, moduleOutward, hm, hp]

end

end ModulesNested

/-! ## Scopes -/

namespace ScopesNested

theorem new (explicitLocals : Bool) : (SymbolTable.new explicitLocals).ScopesNested :=
  ⟨fun _ _ h => by simp [parent?, SymbolTable.new] at h, fun _ h => absurd h List.not_mem_nil, rfl⟩

section
variable (h : t.ScopesNested)
include h

theorem ofParents (hp : ∀ id, u.parent? id = t.parent? id) (hs : u.scopes.size = t.scopes.size)
    (ha : u.active = t.active) : u.ScopesNested := by
  refine ⟨fun id parent hparent => h.parents id parent (by rw [← hp, hparent]), ?_, ?_⟩
  · rw [ha, hs]
    exact h.active
  · unfold top?
    rw [chain_eq fun j _ => hp j, ha]
    exact h.stack

theorem modifyScope (id : Nat) {f : Scope → Scope} (hf : ∀ s, (f s).parent = s.parent) :
    (t.modifyScope id f).ScopesNested := h.ofParents (t.parent?_modifyScope id hf) size_modify rfl

theorem openScope (kind : ScopeKind) : (t.openScope kind).ScopesNested := by
  have hparents : ∀ id parent, (t.openScope kind).parent? id = some parent → parent < id := by
    intro id parent hid
    rw [parent?_openScope] at hid
    split at hid
    · next he => exact he ▸ h.active parent (List.mem_of_mem_head? hid)
    · exact h.parents id parent hid
  refine ⟨hparents, fun id hid => ?_, ?_⟩
  · simp only [SymbolTable.openScope, List.mem_cons, size_push] at hid ⊢
    rcases hid with rfl | hid
    · exact Nat.lt_succ_self _
    · exact Nat.lt_succ_of_lt (h.active id hid)
  · have hsame : (t.openScope kind).chain t.top? = t.chain t.top? := chain_eq fun j hj => by
      rw [h.stack] at hj
      rw [parent?_openScope, if_neg (Nat.ne_of_lt (h.active j hj))]
    show (t.openScope kind).chain (some t.scopes.size) = t.scopes.size :: t.active
    rw [chain_cons hparents, parent?_openScope, if_pos rfl, hsame, h.stack]

theorem closeScope (keep : Bool) : (t.closeScope keep).ScopesNested := by
  unfold SymbolTable.closeScope
  split
  · exact h
  · next id rest hactive =>
    have hrest : t.chain (t.parent? id) = rest := by
      have hstack := h.stack
      unfold top? at hstack
      rw [hactive, List.head?_cons, chain_cons h.parents] at hstack
      exact (List.cons.inj hstack).2
    have hclosed : ScopesNested { t with active := rest } := by
      refine ⟨h.parents, fun j hj => h.active j (by simp [hactive, hj]), ?_⟩
      have hhead := t.head?_chain (t.parent? id)
      rw [hrest] at hhead
      show chain { t with active := rest } rest.head? = rest
      have hsame : chain { t with active := rest } (t.parent? id) = t.chain (t.parent? id) :=
        chain_eq fun _ _ => rfl
      rw [hhead, hsame, hrest]
    split
    · exact hclosed
    · exact hclosed.modifyScope id fun _ => rfl

theorem descending : t.active.Pairwise (· > ·) := h.stack ▸ chain_descending h.parents _

end

end ScopesNested

/-! ## Changes -/

namespace WellNested

theorem new (explicitLocals : Bool) : (SymbolTable.new explicitLocals).WellNested :=
  ⟨.new explicitLocals, .new explicitLocals⟩

section
variable (h : t.WellNested)
include h

theorem used (used : List String) : WellNested { t with used } :=
  ⟨h.ofFrame rfl h.current, h.ofParents (fun _ => rfl) rfl rfl⟩

theorem modifySymbols (slot : Slot) (f : NameTable Symbol → NameTable Symbol) :
    (t.modifySymbols slot f).WellNested := by
  cases slot with
  | scope id => exact ⟨h.ofFrame rfl h.current, h.toScopesNested.modifyScope id fun _ => rfl⟩
  | module id =>
    exact ⟨h.ofFrame (t.sameFrames_modifySymbols (.module id) f).modules h.current, h.ofParents (fun _ => rfl) rfl rfl⟩

theorem storeVar (slot : Slot) (key : String) (value : Value) (pos : Position) :
    (t.storeVar slot key value pos).WellNested := by
  unfold SymbolTable.storeVar
  split <;> exact h.modifySymbols slot _

theorem modifyTop {f : Scope → Scope} (hf : ∀ s, (f s).parent = s.parent) : (t.modifyTop f).WellNested := by
  unfold SymbolTable.modifyTop
  split
  · exact ⟨h.ofFrame rfl h.current, h.toScopesNested.modifyScope _ hf⟩
  · exact h

theorem modifyModule (id : Nat) {f : Module → Module} (hf : ∀ m, (f m).frame = m.frame) :
    (t.modifyModule id f).WellNested :=
  ⟨h.ofFrame (map_modify_of_eq hf) h.current, h.ofParents (fun _ => rfl) rfl rfl⟩

theorem openScope (kind : ScopeKind) : (t.openScope kind).WellNested :=
  ⟨h.ofFrame rfl h.current, h.toScopesNested.openScope kind⟩

theorem closeScope (keep : Bool) : (t.closeScope keep).WellNested := by
  refine ⟨?_, h.toScopesNested.closeScope keep⟩
  obtain ⟨_, hclosed, -⟩ := t.closeScope_eq keep
  rw [hclosed]
  exact h.ofFrame rfl h.current

theorem enterModule (he : t.enterModule name = .ok u) : u.WellNested := by
  refine ⟨h.toModulesNested.enterModule he, ?_⟩
  rcases enterModule_eq he with ⟨-, rfl⟩ | ⟨_, -, -, rfl⟩
  · exact h.toScopesNested
  · exact h.ofParents (fun _ => rfl) rfl rfl

theorem leaveModule : t.leaveModule.WellNested := by
  refine ⟨h.toModulesNested.leaveModule, ?_⟩
  obtain ⟨_, hleft⟩ := t.leaveModule_eq
  rw [hleft]
  exact h.ofParents (fun _ => rfl) rfl rfl

theorem change (hc : t.Change u) : u.WellNested := by
  cases hc with
  | openScope kind => exact h.openScope kind
  | modifyTop f hf => exact h.modifyTop fun s => (hf s).2.1
  | add _ => exact h.modifySymbols _ _
  | setVar _ value pos => exact h.storeVar _ _ value pos
  | count id key value => exact h.modifySymbols (.scope id) _
  | enterModule he => exact h.enterModule he
  | leaveModule => exact h.leaveModule
  | addMacro d | addStruct _ => exact h.modifyModule _ fun _ => rfl

end

end WellNested

end SymbolTable

theorem Moves.wellNested {b : Assembly} (h : Moves a b) (ha : a.symbols.WellNested) : b.symbols.WellNested := by
  refine h.invariant (P := fun a => a.symbols.WellNested) (fun a b hm ha => ?_) ha
  rcases hm.symbols_cases with ⟨used, hb⟩ | hc | ⟨keep, hb⟩ | ⟨used, slot, key, value, hb⟩
  · rw [hb]
    exact ha.used used
  · exact ha.change hc
  · rw [hb]
    exact ha.closeScope keep
  · rw [hb]
    exact (ha.used used).modifySymbols slot _

theorem Reachable.wellNested (h : Reachable a) : a.symbols.WellNested := by
  obtain ⟨setup, hmoves⟩ := h
  exact hmoves.wellNested (.new _)

theorem SymbolTable.symbolsAt_modifySymbols_open (h : t.WellNested) {slot : Slot} (hslot : slot ∈ t.varSlots)
    (f : NameTable Symbol → NameTable Symbol) : (t.modifySymbols slot f).symbolsAt slot = f (t.symbolsAt slot) := by
  cases slot with
  | scope id =>
    have hid : id < t.scopes.size := h.active id (by simpa [varSlots] using hslot)
    simp [symbolsAt, modifySymbols, modifyScope, getElem?_modify, getElem?_eq_getElem hid]
  | module id =>
    have hid : id < t.modules.size := (show id = t.current by simpa [varSlots] using hslot) ▸ h.current
    simp [symbolsAt, modifySymbols, modifyModule, getElem?_modify, getElem?_eq_getElem hid]

theorem SymbolTable.symbolsAt_modifySymbols_labelSlot (h : t.WellNested) (key : String)
    (f : NameTable Symbol → NameTable Symbol) :
    (t.modifySymbols (t.labelSlot key) f).symbolsAt (t.labelSlot key) = f (t.symbolsAt (t.labelSlot key)) :=
  symbolsAt_modifySymbols_open h (t.labelSlot_mem_varSlots key) f

end SpectrumAsm
