/-
Symbol tables that are alike up to the case of names and the numbers of their scopes.

When a loop is written out, the scopes of its passes are missing, and later scopes have other numbers. A map
says which scope of the second table stands for a scope of the first one. For a pass that is written out it is
the scope around the pass, as its own scope never holds a symbol.
-/
import SpectrumAsm.Proofs.Lookups
import SpectrumAsm.Proofs.RecasedLines
import SpectrumAsm.Proofs.RewrittenLines
import SpectrumAsm.Proofs.Simulation

namespace SpectrumAsm

open List SymbolTable

variable {α β γ δ : Type} {i id j : Nat} {s s' : Option Nat} {slot slot' : Slot} {steady : Prop} {y : Option β}
  {x : Option α}

/-! ## Tables of names -/

variable {R : α → β → Prop} {f : α → Option γ}

theorem rel_bind_eq
    {g : β → Option γ} (h : Option.Rel R x y) (hfg : ∀ x y, R x y → g y = f x) : y.bind g = x.bind f := by
  cases h with
  | none => rfl
  | some hxy => exact hfg _ _ hxy

theorem rel_map_eq {f : α → γ} {g : β → γ}
    (h : Option.Rel R x y) (hfg : ∀ x y, R x y → g y = f x) : y.map g = x.map f := by
  cases h with
  | none => rfl
  | some hxy => exact congrArg some (hfg _ _ hxy)

variable {S : γ → δ → Prop}

theorem rel_bind {g : β → Option δ} (h : Option.Rel R x y)
    (hf : ∀ x y, R x y → Option.Rel S (f x) (g y)) : Option.Rel S (x.bind f) (y.bind g) := by
  cases h with
  | none => exact .none
  | some hxy => exact hf _ _ hxy

theorem rel_findSome? {P : α → β → Prop} {xs : List α} {ys : List β} {g : β → Option δ} (h : Forall₂ P xs ys)
    (hf : ∀ x y, P x y → Option.Rel S (f x) (g y)) : Option.Rel S (xs.findSome? f) (ys.findSome? g) := by
  induction h with
  | nil => exact .none
  | @cons x y xs ys hxy _ ih =>
    have hfirst := hf x y hxy
    rw [findSome?_cons, findSome?_cons]
    generalize f x = v at hfirst
    generalize g y = w at hfirst
    cases hfirst with
    | none => exact ih
    | some hvw => exact .some hvw

/-- Tables with the same names in the same order and with related values. -/
def NameTable.Rel {α β : Type} (R : α → β → Prop) (t : NameTable α) (u : NameTable β) : Prop :=
  Forall₂ (fun x y => y.1 = x.1 ∧ R x.2 y.2) t.entries u.entries

namespace NameTable.Rel

variable {R : α → β → Prop} {t : NameTable α} {u : NameTable β}

theorem empty : NameTable.Rel R ({} : NameTable α) ({} : NameTable β) := .nil

section
variable (h : t.Rel R u) (name : String)
include h

theorem get? : Option.Rel R (t.get? name) (u.get? name) := by
  obtain ⟨xs⟩ := t
  obtain ⟨ys⟩ := u
  change Forall₂ _ xs ys at h
  show Option.Rel R (xs.lookup name) (ys.lookup name)
  induction h with
  | nil => exact .none
  | @cons x y xs ys hxy _ ih =>
    obtain ⟨key, v⟩ := x
    obtain ⟨key', w⟩ := y
    obtain ⟨rfl, hvw⟩ : key' = key ∧ R v w := hxy
    rw [lookup_cons, lookup_cons]
    split
    · exact .some hvw
    · exact ih

theorem contains : u.contains name = t.contains name := rel_isSome (h.get? name)

theorem modify {f : α → α} {g : β → β} (hfg : ∀ x y, R x y → R (f x) (g y)) :
    (t.modify name f).Rel R (u.modify name g) := by
  refine forall₂_map_left_iff.2 (forall₂_map_right_iff.2 (h.imp fun x y hxy => ?_))
  rw [hxy.1]
  split
  · exact ⟨rfl, hfg _ _ hxy.2⟩
  · exact hxy

theorem insert {x : α} {y : β} (hxy : R x y) : (t.insert name x).Rel R (u.insert name y) := by
  unfold NameTable.insert
  rw [h.contains]
  split
  · exact h.modify name fun _ _ _ => hxy
  · exact rel_append h (.cons ⟨rfl, hxy⟩ .nil)

end

end NameTable.Rel

/-! ## What tables hold -/

/-- Symbols alike. -/
structure Symbol.Alike (K : Rewriting) (s s' : Symbol) : Prop where
  name : s'.name = s.name
  kind : s'.kind = s.kind
  value : s'.value = s.value
  pos : K.exact → s'.pos = s.pos

/-- Macros alike. -/
structure MacroDef.Alike (K : Rewriting) (d d' : MacroDef) : Prop where
  name : d'.name = d.name
  params : d'.params = d.params.map K.case
  body : Rewritten K.loose d.body d'.body
  endLabel : d'.endLabel = d.endLabel.map K.case

/-- Structures alike. -/
structure StructDef.Alike (K : Rewriting) (d d' : StructDef) : Prop where
  name : d'.name = d.name
  size : d'.size = d.size
  fields : d'.fields = d.fields
  body : Bodies K d.body d'.body

/-- Modules alike. -/
structure Module.Alike (K : Rewriting) (m m' : Module) : Prop where
  name : m'.name = m.name
  parent : m'.parent = m.parent
  children : m'.children = m.children
  symbols : m.symbols.Rel (Symbol.Alike K) m'.symbols
  macros : m.macros.Rel (MacroDef.Alike K) m'.macros
  structs : m.structs.Rel (StructDef.Alike K) m'.structs

/-- What stands in a second table for a scope of the first one: a scope, or, for a pass of a loop that is
written out, the scope around it. -/
inductive Image where
  | scope (id : Nat)
  | pass (around : Option Nat)

/-- What stands for the scopes of a table. -/
abbrev ScopeMap := Nat → Option Image

/-- A scope and the scope that stands for it. -/
abbrev ScopeMap.Takes (π : ScopeMap) (i j : Nat) : Prop := π i = some (.scope j)

/-- Scopes one of which stands for the other, or none for none. -/
abbrev ScopeRel (π : ScopeMap) : Option Nat → Option Nat → Prop := Option.Rel π.Takes

/-- Scopes alike. -/
structure Scope.Alike (K : Rewriting) (π : ScopeMap) (s s' : Scope) : Prop where
  kind : s'.kind = s.kind
  parent : ScopeRel π s.parent s'.parent
  symbols : s.symbols.Rel (Symbol.Alike K) s'.symbols
  locals : s'.locals = s.locals
  counter : s'.counter = s.counter
  exit : s'.exit = s.exit

/-- The open scopes stand for each other, but for that of a pass that is written out. Nothing leaves such a
pass early, nor the pass around it. -/
inductive ActiveAlike (π : ScopeMap) (t u : SymbolTable) : Option Nat → Prop where
  | outside (h : Forall₂ π.Takes t.active u.active) : ActiveAlike π t u none
  | inside {id : Nat} {outer : List Nat} (hactive : t.active = id :: outer) (hid : π id = some (.pass u.top?))
    (h : Forall₂ π.Takes outer u.active)
    (hexit : u.topScope?.bind (·.exit) = none) : ActiveAlike π t u (some id)

/-- Tables alike, during pass `pass` of a loop that is written out, or else outside of such a loop. -/
structure SymbolTable.Alike (K : Rewriting) (π : ScopeMap) (pass : Option Nat) (t u : SymbolTable) : Prop where
  modules : ∀ id : Nat, Option.Rel (Module.Alike K) t.modules[id]? u.modules[id]?
  scopes : ∀ {i j : Nat}, π i = some (.scope j) →
    ∃ s s', t.scopes[i]? = some s ∧ u.scopes[j]? = some s' ∧ s.Alike K π s'
  passes : ∀ {i : Nat} {s' : Option Nat}, π i = some (.pass s') →
    ∃ s, t.scopes[i]? = some s ∧ s.symbols.entries = [] ∧ s.exit = none ∧ ScopeRel π s.parent s'
  injective : ∀ {i i' j : Nat}, π i = some (.scope j) → π i' = some (.scope j) → i = i'
  smaller : ∀ id parent, t.parent? id = some parent → parent < id
  smaller' : ∀ id parent, u.parent? id = some parent → parent < id
  active : ActiveAlike π t u pass
  current : u.current = t.current
  used : u.used = t.used
  explicitLocals : u.explicitLocals = t.explicitLocals

/-- A scope and what stands for it: for a pass of a loop that is written out the scope around it, as long
as what is asked about it is `steady`. -/
inductive Stands (π : ScopeMap) (steady : Prop) : Option Nat → Option Nat → Prop where
  | scope {s s' : Option Nat} (h : ScopeRel π s s') : Stands π steady s s'
  | pass {id : Nat} {s' : Option Nat} (h : π id = some (.pass s')) (hsteady : steady) : Stands π steady (some id) s'

theorem ScopeMap.update_cases {π : ScopeMap} {n : Nat} {x y : Image}
    (h : Function.update π n (some x) i = some y) : i = n ∧ x = y ∨ π i = some y := by
  by_cases hi : i = n
  · rw [hi, Function.update_self] at h
    exact .inl ⟨hi, Option.some.inj h⟩
  · rw [Function.update_of_ne hi] at h
    exact .inr h

/-- A map of scopes that says what another one says, and more. -/
def ScopeMap.Extends (π π' : ScopeMap) : Prop := ∀ i x, π i = some x → π' i = some x

namespace ScopeMap.Extends

variable {π π' : ScopeMap}

theorem refl (π : ScopeMap) : π.Extends π := fun _ _ h => h

theorem trans {π'' : ScopeMap} (h : π.Extends π') (h' : π'.Extends π'') : π.Extends π'' :=
  fun i x hi => h' i x (h i x hi)

theorem update {n : Nat} (hn : π n = none) (x : Image) : π.Extends (Function.update π n (some x)) := by
  intro i y hi
  have hne : i ≠ n := by
    rintro rfl
    cases hn.symm.trans hi
  rw [Function.update_of_ne hne]
  exact hi

theorem scopeRel (h : π.Extends π') (hs : ScopeRel π s s') : ScopeRel π' s s' := by
  cases hs with
  | none => exact .none
  | some hij => exact .some (h _ _ hij)

theorem stands (h : π.Extends π') (hs : Stands π steady s s') : Stands π' steady s s' := by
  cases hs with
  | scope hs => exact .scope (h.scopeRel hs)
  | pass hid hsteady => exact .pass (h _ _ hid) hsteady

end ScopeMap.Extends

namespace SymbolTable

variable {K : Rewriting} {π : ScopeMap} {pass : Option Nat} {t u : SymbolTable}

namespace Alike

variable (h : t.Alike K π pass u)
include h

theorem parent (hij : π i = some (.scope j)) : ScopeRel π (t.parent? i) (u.parent? j) := by
  obtain ⟨s, s', hs, hs', hss⟩ := h.scopes hij
  unfold parent?
  rw [hs, hs']
  exact hss.parent

theorem outward {n m : Nat} (hn : i < n) (hm : j < m) (hij : π i = some (.scope j)) :
    Forall₂ π.Takes (t.outward n i) (u.outward m j) := by
  induction n generalizing m i j with
  | zero => omega
  | succ n ih =>
    cases m with
    | zero => omega
    | succ m =>
      unfold outward
      have hparent := h.parent hij
      generalize hp : t.parent? i = p, hq : u.parent? j = q at hparent
      cases hparent with
      | none => exact .cons hij .nil
      | some hpq =>
        have := h.smaller i _ hp
        have := h.smaller' j _ hq
        exact .cons hij (ih (by omega) (by omega) hpq)

theorem chain (hs : ScopeRel π s s') : Forall₂ π.Takes (t.chain s) (u.chain s') := by
  cases hs with
  | none => exact .nil
  | some hij => exact h.outward (Nat.lt_succ_self _) (Nat.lt_succ_self _) hij

theorem chain_pass (hid : π id = some (.pass s')) :
    ∃ outer, t.chain (some id) = id :: outer ∧ Forall₂ π.Takes outer (u.chain s') := by
  obtain ⟨s, hs, -, -, hparent⟩ := h.passes hid
  refine ⟨t.chain s.parent, ?_, h.chain hparent⟩
  rw [chain_cons h.smaller]
  unfold parent?
  rw [hs]
  rfl

theorem contains (hij : π i = some (.scope j)) {is js : List Nat} (hs : Forall₂ π.Takes is js) :
    js.contains j = is.contains i := by
  induction hs with
  | nil => rfl
  | @cons i' j' _ _ hij' _ ih =>
    rw [contains_cons, contains_cons, ih]
    by_cases hi : i = i'
    · subst hi
      cases hij.symm.trans hij'
      rw [beq_self_eq_true, beq_self_eq_true]
    · have hj : j ≠ j' := by
        rintro rfl
        exact hi (h.injective hij hij')
      rw [beq_false_of_ne hi, beq_false_of_ne hj]

theorem encloses (hs : Stands π steady s s') (hij : π i = some (.scope j)) : u.encloses s' j = t.encloses s i := by
  unfold SymbolTable.encloses
  cases hs with
  | scope hs => exact h.contains hij (h.chain hs)
  | @pass id _ hid _ =>
    obtain ⟨outer, hchain, houter⟩ := h.chain_pass hid
    have hne : i ≠ id := by
      rintro rfl
      cases hid.symm.trans hij
    rw [hchain, contains_cons, beq_false_of_ne hne, Bool.false_or]
    exact h.contains hij houter

theorem eq_of_encloses {around : Option Nat} (hs : Stands π steady s s')
    (hid : π id = some (.pass around)) (he : t.encloses s id = true) : s = some id := by
  have hnot {is js : List Nat} (h : Forall₂ π.Takes is js) : id ∉ is := by
    induction h with
    | nil => exact not_mem_nil
    | @cons i j _ _ hij _ ih =>
      intro hmem
      rcases mem_cons.1 hmem with rfl | hmem
      · cases hid.symm.trans hij
      · exact ih hmem
  have hmem := contains_iff_mem.1 he
  cases hs with
  | scope hs => exact absurd hmem (hnot (h.chain hs))
  | pass hid' _ =>
    obtain ⟨outer, hchain, houter⟩ := h.chain_pass hid'
    rw [hchain] at hmem
    rcases mem_cons.1 hmem with rfl | hmem
    · rfl
    · exact absurd hmem (hnot houter)

/-! ## Lookup -/

theorem symbolsOfScope (hij : π i = some (.scope j)) (name : String) : Option.Rel (Symbol.Alike K)
    (t.scopes[i]?.bind fun s => s.symbols.get? name) (u.scopes[j]?.bind fun s => s.symbols.get? name) := by
  obtain ⟨s, s', hs, hs', hss⟩ := h.scopes hij
  rw [hs, hs']
  exact hss.symbols.get? name

theorem lookupScopes (hs : Stands π steady s s') (name : String) :
    Option.Rel (Symbol.Alike K) (t.lookupScopes s name) (u.lookupScopes s' name) := by
  cases hs with
  | scope hs => exact rel_findSome? (h.chain hs) fun i j hij => h.symbolsOfScope hij name
  | @pass id _ hid _ =>
    obtain ⟨s, hs, hempty, -⟩ := h.passes hid
    obtain ⟨outer, hchain, houter⟩ := h.chain_pass hid
    -- nothing is found in the scope of the pass itself
    have hnone : (t.scopes[id]?.bind fun s => s.symbols.get? name) = none := by
      rw [hs]
      show List.lookup name s.symbols.entries = none
      rw [hempty]
      rfl
    unfold lookupScopes
    rw [hchain, findSome?_cons, hnone]
    exact rel_findSome? houter fun i j hij => h.symbolsOfScope hij name

theorem resolveIn (id : Nat) (path : List String) :
    Option.Rel (Symbol.Alike K) (t.resolveIn id path) (u.resolveIn id path) := by
  induction path generalizing id with
  | nil => exact rel_bind (h.modules id) fun m m' hm => hm.symbols.get? ""
  | cons part rest ih =>
    unfold SymbolTable.resolveIn
    have hmodule := h.modules id
    generalize t.modules[id]? = x, u.modules[id]? = y at hmodule
    cases hmodule with
    | none => exact .none
    | @some m m' hm =>
      have hfound := hm.symbols.get? (".".intercalate (part :: rest))
      dsimp only
      generalize m.symbols.get? _ = x, m'.symbols.get? _ = y at hfound
      cases hfound with
      | some hs => exact .some hs
      | none =>
        dsimp only
        split
        · exact .none
        · rw [hm.children]
          cases m.children.get? part with
          | none => exact .none
          | some child => exact ih child

theorem moduleChain (id : Nat) : u.moduleChain id = t.moduleChain id :=
  moduleChain_congr (fun id => rel_bind_eq (h.modules id) fun _ _ hm => hm.parent) id

theorem alongModules {f : Nat → Option γ} {g : Nat → Option δ} (id : Nat) (hf : ∀ id, Option.Rel S (f id) (g id)) :
    Option.Rel S ((t.moduleChain id).findSome? f) ((u.moduleChain id).findSome? g) := by
  rw [h.moduleChain]
  exact rel_findSome? (forall₂_same.2 fun _ _ => rfl) fun i j (hij : i = j) => hij ▸ hf i

theorem lookup (hs : Stands π steady s s') (ref : SymbolRef) (module : Nat) :
    Option.Rel (Symbol.Alike K) (t.lookup ref s module) (u.lookup ref s' module) := by
  unfold SymbolTable.lookup
  split
  · exact h.resolveIn 0 ref.path
  match t.lookupScopes s _, u.lookupScopes s' _, h.lookupScopes hs ref.joined with
  | _, _, .some hx => exact .some hx
  | _, _, .none => exact h.alongModules module fun id => h.resolveIn id ref.path

theorem symbol_env {place place' : Place} (hs : Stands π steady place.scope place'.scope)
    (hm : place'.module = place.module) : (u.env place').symbol = (t.env place).symbol := by
  funext ref
  show (u.lookup ref place'.scope place'.module).bind (·.value) = (t.lookup ref place.scope place.module).bind (·.value)
  rw [hm]
  exact rel_bind_eq (h.lookup hs ref place.module) fun _ _ hx => hx.value

theorem loopCounter? (hs : ScopeRel π s s') : u.loopCounter? s' = t.loopCounter? s := by
  have heq {x y : Option Int64} (h : Option.Rel Eq x y) : y = x := by
    cases h with
    | none => rfl
    | some hxy => rw [hxy]
  refine heq (rel_findSome? (h.chain hs) fun i j hij => ?_)
  obtain ⟨s, s', hs, hs', hss⟩ := h.scopes hij
  rw [hs, hs']
  dsimp only
  rw [hss.kind, hss.counter]
  split
  · exact .some rfl
  · exact .none

end Alike

/-! ## Changes -/

/-- The names that are asked for once those of some references are. -/
def marked (refs : List SymbolRef) (used : List String) : List String :=
  refs.foldl (fun used ref => if used.contains ref.joined then used else ref.joined :: used) used

theorem markExpr_marked (t : SymbolTable) (e : Expr) : t.markExpr e = { t with used := marked e.symbols t.used } := by
  unfold markExpr marked
  generalize e.symbols = refs
  induction refs generalizing t with
  | nil => rfl
  | cons ref refs ih =>
    rw [foldl_cons, foldl_cons, ih]
    unfold markUsed
    split <;> rfl

/-- Places of symbols that stand for each other. -/
inductive SlotRel (π : ScopeMap) : Slot → Slot → Prop where
  | scope {i j : Nat} (h : π i = some (.scope j)) : SlotRel π (.scope i) (.scope j)
  | module (id : Nat) : SlotRel π (.module id) (.module id)

namespace Alike

variable (h : t.Alike K π pass u)
include h

theorem asked (used : List String) : Alike K π pass { t with used } { u with used } where
  __ := h
  active := by
    cases h.active with
    | outside ha => exact .outside ha
    | inside hactive hid ha hexit => exact .inside hactive hid ha hexit
  used := rfl

theorem markExpr (e : Expr) : (t.markExpr e).Alike K π pass (u.markExpr e) := by
  rw [markExpr_marked, markExpr_marked, h.used]
  exact h.asked _

end Alike

/-! ### Outside of loops that are written out -/

namespace Alike

variable (h : t.Alike K π none u)
include h

theorem activeScopes : Forall₂ π.Takes t.active u.active := by
  cases h.active with
  | outside ha => exact ha

theorem modifyScope (hij : π i = some (.scope j)) {f g : Scope → Scope}
    (hf : ∀ s, (f s).parent = s.parent) (hg : ∀ s, (g s).parent = s.parent)
    (hfg : ∀ s s', s.Alike K π s' → (f s).Alike K π (g s')) :
    (t.modifyScope i f).Alike K π none (u.modifyScope j g) where
  modules := h.modules
  scopes := by
    intro i' j' hij'
    obtain ⟨s, s', hs, hs', hss⟩ := h.scopes hij'
    unfold SymbolTable.modifyScope
    rw [Array.getElem?_modify, Array.getElem?_modify, hs, hs']
    by_cases hi : i = i'
    · subst hi
      cases hij.symm.trans hij'
      rw [if_pos rfl, if_pos rfl]
      exact ⟨f s, g s', rfl, rfl, hfg s s' hss⟩
    · have hj : j ≠ j' := by
        rintro rfl
        exact hi (h.injective hij hij')
      rw [if_neg hi, if_neg hj]
      exact ⟨s, s', rfl, rfl, hss⟩
  passes := by
    intro i' s' hi'
    obtain ⟨s, hs, hrest⟩ := h.passes hi'
    have hne : i ≠ i' := by
      rintro rfl
      cases hij.symm.trans hi'
    refine ⟨s, ?_, hrest⟩
    unfold SymbolTable.modifyScope
    rw [Array.getElem?_modify, if_neg hne]
    exact hs
  injective := h.injective
  smaller id parent hp := h.smaller id parent (by rwa [parent?_modifyScope t i hf] at hp)
  smaller' id parent hp := h.smaller' id parent (by rwa [parent?_modifyScope u j hg] at hp)
  active := .outside h.activeScopes
  current := h.current
  used := h.used
  explicitLocals := h.explicitLocals

theorem setModules {modules modules' : Array Module}
    (hm : ∀ id : Nat, Option.Rel (Module.Alike K) modules[id]? modules'[id]?) :
    Alike K π none { t with modules } { u with modules := modules' } where
  __ := h
  modules := hm
  active := .outside h.activeScopes

theorem modifyModule (id : Nat) {f g : Module → Module} (hfg : ∀ m m', m.Alike K m' → (f m).Alike K (g m')) :
    (t.modifyModule id f).Alike K π none (u.modifyModule id g) := by
  refine h.setModules fun id' => ?_
  rw [Array.getElem?_modify, Array.getElem?_modify]
  split
  · exact rel_map (h.modules id') hfg
  · exact h.modules id'

section
variable (hslot : SlotRel π slot slot')
include hslot

theorem symbolsAt : (t.symbolsAt slot).Rel (Symbol.Alike K) (u.symbolsAt slot') := by
  cases hslot with
  | scope hij =>
    obtain ⟨s, s', hs, hs', hss⟩ := h.scopes hij
    simp only [symbolsAt, hs, hs']
    exact hss.symbols
  | module id =>
    simp only [symbolsAt]
    have hmodule := h.modules id
    generalize t.modules[id]? = x, u.modules[id]? = y at hmodule
    cases hmodule with
    | none => exact .empty
    | some hm => exact hm.symbols

theorem isTaken (key : String) : u.isTaken slot' key = t.isTaken slot key := (h.symbolsAt hslot).contains key

theorem modifySymbols {f g : NameTable Symbol → NameTable Symbol}
    (hfg : ∀ x y, NameTable.Rel (Symbol.Alike K) x y → (f x).Rel (Symbol.Alike K) (g y)) :
    (t.modifySymbols slot f).Alike K π none (u.modifySymbols slot' g) := by
  cases hslot with
  | scope hij =>
    exact h.modifyScope hij (fun _ => rfl) (fun _ => rfl) fun s s' hs =>
      { hs with symbols := hfg _ _ hs.symbols }
  | module id =>
    exact h.modifyModule id fun m m' hm =>
      { hm with symbols := hfg _ _ hm.symbols }

theorem addSymbol {s s' : Symbol} (hs : s.Alike K s') : (t.addSymbol slot s).Alike K π none (u.addSymbol slot' s') := by
  unfold SymbolTable.addSymbol
  rw [hs.name]
  exact h.modifySymbols hslot fun x y hxy => hxy.insert s.name hs

theorem assign (key : String) (value : Value) : (t.assign slot key value).Alike K π none (u.assign slot' key value) :=
  h.modifySymbols hslot fun _ _ hxy => hxy.modify key fun _ _ hs => ⟨hs.name, hs.kind, rfl, hs.pos⟩

end

/-! ### Modules -/

theorem isUsed (ref : SymbolRef) : u.isUsed ref = t.isUsed ref := by
  unfold SymbolTable.isUsed
  rw [h.used]

theorem setCurrent (current : Nat) : Alike K π none { t with current } { u with current } where
  __ := h
  active := .outside h.activeScopes
  current := rfl

theorem size_modules : u.modules.size = t.modules.size := by
  have hsize (id : Nat) : u.modules.size ≤ id ↔ t.modules.size ≤ id := by
    rw [← Array.getElem?_eq_none_iff, ← Array.getElem?_eq_none_iff, ← Option.not_isSome_iff_eq_none,
      ← Option.not_isSome_iff_eq_none, rel_isSome (h.modules id)]
  exact Nat.le_antisymm ((hsize _).2 (Nat.le_refl _)) ((hsize _).1 (Nat.le_refl _))

theorem findMacro? (name : String) :
    Option.Rel (MacroDef.Alike K) (t.findMacro? name) (u.findMacro? (K.case name)) := by
  unfold SymbolTable.findMacro?
  rw [h.current, K.upcase_case]
  exact h.alongModules t.current fun id => rel_bind (h.modules id) fun m m' hm => hm.macros.get? _

theorem findStruct? (name : String) :
    Option.Rel (StructDef.Alike K) (t.findStruct? name) (u.findStruct? (K.case name)) := by
  unfold SymbolTable.findStruct?
  rw [h.current, K.upcase_case]
  exact h.alongModules t.current fun id => rel_bind (h.modules id) fun m m' hm => hm.structs.get? _

theorem ofCurrent {f g : Module → Bool} (hfg : ∀ m m', m.Alike K m' → g m' = f m) :
    (u.modules[u.current]?.map g).getD false = (t.modules[t.current]?.map f).getD false := by
  rw [h.current, rel_map_eq (h.modules t.current) hfg]

theorem hasMacro (key : String) : u.hasMacro key = t.hasMacro key := h.ofCurrent fun _ _ hm => hm.macros.contains key

theorem hasStruct (key : String) : u.hasStruct key = t.hasStruct key :=
  h.ofCurrent fun _ _ hm => hm.structs.contains key

theorem addMacro {d d' : MacroDef} (hd : d.Alike K d') : (t.addMacro d).Alike K π none (u.addMacro d') := by
  unfold SymbolTable.addMacro
  rw [h.current, hd.name]
  exact h.modifyModule t.current fun m m' hm =>
    { hm with macros := hm.macros.insert d.name hd }

theorem addStruct {d d' : StructDef} (hd : d.Alike K d') : (t.addStruct d).Alike K π none (u.addStruct d') := by
  unfold SymbolTable.addStruct
  rw [h.current, hd.name]
  exact h.modifyModule t.current fun m m' hm =>
    { hm with structs := hm.structs.insert d.name hd }

theorem leaveModule : t.leaveModule.Alike K π none u.leaveModule := by
  have hparent : u.modules[t.current]?.bind (·.parent) = t.modules[t.current]?.bind (·.parent) :=
    rel_bind_eq (h.modules t.current) fun _ _ hm => hm.parent
  unfold SymbolTable.leaveModule
  rw [h.current, hparent]
  cases t.modules[t.current]?.bind (·.parent) with
  | none => exact h
  | some parent => exact h.setCurrent parent

theorem enterModule (name : String) :
    (∃ fault fault', t.enterModule name = .error fault ∧ u.enterModule (K.case name) = .error fault' ∧
        SameFault K.filled fault fault') ∨
      ∃ t' u', t.enterModule name = .ok t' ∧ u.enterModule (K.case name) = .ok u' ∧ t'.Alike K π none u' := by
  have hsize := h.size_modules
  have hpush : ∀ id : Nat, Option.Rel (Module.Alike K)
      (t.modules.push { name := Text.upcase name, parent := some t.current })[id]?
      (u.modules.push { name := Text.upcase name, parent := some t.current })[id]? := by
    intro id
    rw [Array.getElem?_push, Array.getElem?_push, hsize]
    split
    · exact .some ⟨rfl, rfl, rfl, .empty, .empty, .empty⟩
    · exact h.modules id
  unfold SymbolTable.enterModule
  rw [h.current, K.upcase_case]
  match t.modules[t.current]?, u.modules[t.current]?, h.modules t.current with
  | _, _, .none => exact .inr ⟨t, u, rfl, rfl, h⟩
  | _, _, .some hm =>
    dsimp only
    rw [hm.children, hsize]
    split
    · exact .inl ⟨_, _, rfl, rfl, rfl, fun _ => rfl⟩
    · refine .inr ⟨_, _, rfl, rfl, ?_⟩
      refine ((h.setModules hpush).modifyModule t.current fun m m' hm => ?_).setCurrent t.modules.size
      exact { hm with children := congrArg (·.insert (Text.upcase name) t.modules.size) hm.children }

theorem exported : t.exported.Rel (Symbol.Alike K) u.exported := by
  have hqualifier (id : Nat) : u.qualifier id = t.qualifier id := by
    have hnames (ids : List Nat) : (ids.filterMap fun m => u.modules[m]?.map (·.name)) =
        ids.filterMap fun m => t.modules[m]?.map (·.name) := by
      congr 1
      funext id
      exact rel_map_eq (h.modules id) fun _ _ hm => hm.name
    unfold qualifier
    rw [h.moduleChain, hnames]
  have hentries (id j : Nat) (hj : id = j) : Forall₂ (fun x y => y.1 = x.1 ∧ x.2.Alike K y.2)
      (t.qualifiedEntries id) (u.qualifiedEntries j) := by
    subst hj
    unfold qualifiedEntries
    rw [hqualifier, forall₂_map_left_iff, forall₂_map_right_iff]
    exact (h.symbolsAt (.module id)).imp fun x y hxy => ⟨congrArg (t.qualifier id ++ ·) hxy.1, hxy.2⟩
  rw [exported_eq, exported_eq, h.size_modules]
  refine rel_foldl ?_ .empty (rel_flatMap (R := Eq) (forall₂_refl _) hentries)
  intro out out' hout x y hxy
  dsimp only
  rw [hxy.1]
  exact hout.insert x.1 hxy.2

theorem top : ScopeRel π t.top? u.top? := by
  unfold top?
  match t.active, u.active, h.activeScopes with
  | _, _, .nil => exact .none
  | _, _, .cons hij _ => exact .some hij

theorem topScope : Option.Rel (Scope.Alike K π) t.topScope? u.topScope? := by
  refine rel_bind h.top fun i j hij => ?_
  obtain ⟨s, s', hs, hs', hss⟩ := h.scopes hij
  rw [hs, hs']
  exact .some hss

theorem topScope_exit : u.topScope?.bind (·.exit) = t.topScope?.bind (·.exit) :=
  rel_bind_eq h.topScope fun _ _ hs => hs.exit

theorem modifyTop {f g : Scope → Scope} (hf : ∀ s, (f s).parent = s.parent) (hg : ∀ s, (g s).parent = s.parent)
    (hfg : ∀ s s', s.Alike K π s' → (f s).Alike K π (g s')) : (t.modifyTop f).Alike K π none (u.modifyTop g) := by
  unfold SymbolTable.modifyTop
  match t.top?, u.top?, h.top with
  | _, _, .none => exact h
  | _, _, .some hij => exact h.modifyScope hij hf hg hfg

theorem labelSlot (key : String) : SlotRel π (t.labelSlot key) (u.labelSlot key) := by
  unfold SymbolTable.labelSlot
  rw [h.current, h.explicitLocals]
  match t.top?, u.top?, h.top with
  | _, _, .none => exact .module _
  | _, _, .some hij =>
    obtain ⟨s, s', hs, hs', hss⟩ := h.scopes hij
    dsimp only
    rw [hs, hs']
    dsimp only
    rw [hss.kind, hss.locals]
    split
    · exact .module _
    · exact .scope hij

theorem varSlots : Forall₂ (SlotRel π) t.varSlots u.varSlots := by
  unfold SymbolTable.varSlots
  rw [h.current]
  refine rel_append ?_ (.cons (.module _) .nil)
  exact forall₂_map_left_iff.2 (forall₂_map_right_iff.2 (h.activeScopes.imp fun _ _ hij => .scope hij))

theorem innermostSlot : SlotRel π t.innermostSlot u.innermostSlot := by
  unfold SymbolTable.innermostSlot
  rw [h.current]
  match t.top?, u.top?, h.top with
  | _, _, .none => exact .module _
  | _, _, .some hij => exact .scope hij

theorem varSlot (key : String) :
    (∃ fault, t.varSlot key = .error fault ∧ u.varSlot key = .error fault ∧ fault.isParam = false) ∨
      ∃ slot slot', t.varSlot key = .ok slot ∧ u.varSlot key = .ok slot' ∧ SlotRel π slot slot' := by
  have hfound := rel_find? h.varSlots (p := fun slot => t.isTaken slot key) (q := fun slot => u.isTaken slot key)
    fun slot slot' hslot => h.isTaken hslot key
  unfold SymbolTable.varSlot
  match t.varSlots.find? _, u.varSlots.find? _, hfound with
  | _, _, .none => exact .inr ⟨_, _, rfl, rfl, h.innermostSlot⟩
  | some slot, some slot', .some hslot =>
    dsimp only
    match (t.symbolsAt slot).get? key, (u.symbolsAt slot').get? key, (h.symbolsAt hslot).get? key with
    | _, _, .none => exact .inl ⟨_, rfl, rfl, rfl⟩
    | _, _, .some hs =>
      dsimp only
      rw [hs.kind]
      split
      · exact .inr ⟨slot, slot', rfl, rfl, hslot⟩
      · exact .inl ⟨_, rfl, rfl, rfl⟩

theorem storeVar (hslot : SlotRel π slot slot') (key : String)
    (value : Value) {pos pos' : Position} (hpos : K.exact → pos' = pos) :
    (t.storeVar slot key value pos).Alike K π none (u.storeVar slot' key value pos') := by
  unfold SymbolTable.storeVar
  rw [h.isTaken hslot]
  split
  · exact h.assign hslot key value
  · exact h.addSymbol hslot ⟨rfl, rfl, rfl, hpos⟩

theorem isVisible (name : String) : u.isVisible (K.case name) = t.isVisible name := by
  unfold SymbolTable.isVisible lookupHere
  rw [h.current, ← SymbolRef.parse_upcase (K.case name), K.upcase_case, SymbolRef.parse_upcase]
  have htop : Stands π True t.top? u.top? := .scope h.top
  exact rel_isSome (h.lookup htop _ _)

end Alike

/-! ### Scopes opened and closed -/

theorem getElem?_openScope {t : SymbolTable} {s : Scope} (hs : t.scopes[id]? = some s)
    (kind : ScopeKind) : (t.openScope kind).scopes[id]? = some s := by
  have hid := (Array.getElem?_eq_some_iff.1 hs).1
  show (t.scopes.push _)[id]? = some s
  rw [Array.getElem?_push, if_neg (by omega)]
  exact hs

theorem Alike.lt_scopes (h : t.Alike K π pass u) (hij : π i = some (.scope j)) :
    i < t.scopes.size ∧ j < u.scopes.size := by
  obtain ⟨s, s', hs, hs', -⟩ := h.scopes hij
  exact ⟨(Array.getElem?_eq_some_iff.1 hs).1, (Array.getElem?_eq_some_iff.1 hs').1⟩

theorem Alike.fresh (h : t.Alike K π pass u) : π t.scopes.size = none := by
  cases hπ : π t.scopes.size with
  | none => rfl
  | some image =>
    cases image with
    | scope j => exact absurd (h.lt_scopes hπ).1 (Nat.lt_irrefl _)
    | pass s' =>
      obtain ⟨s, hs, -⟩ := h.passes hπ
      exact absurd (Array.getElem?_eq_some_iff.1 hs).1 (Nat.lt_irrefl _)

namespace Alike

variable (h : t.Alike K π none u)
include h

theorem smaller_openScope (kind : ScopeKind) (id parent : Nat) :
    ((t.openScope kind).parent? id = some parent → parent < id) ∧
      ((u.openScope kind).parent? id = some parent → parent < id) := by
  rw [parent?_openScope, parent?_openScope]
  have hsmaller := h.smaller id parent
  have hsmaller' := h.smaller' id parent
  match ht : t.top?, hu : u.top?, h.top with
  | _, _, .none => constructor <;> intro hp <;> split at hp <;>
    first | cases hp | exact hsmaller hp | exact hsmaller' hp
  | _, _, .some hij =>
    have hlt := h.lt_scopes hij
    constructor <;> intro hp <;> split at hp <;> first | exact hsmaller hp | exact hsmaller' hp | (cases hp; omega)

theorem openScope (kind : ScopeKind) :
    (t.openScope kind).Alike K (Function.update π t.nextScope (some (.scope u.nextScope))) none (u.openScope kind) := by
  have hext := ScopeMap.Extends.update h.fresh (.scope u.nextScope)
  refine ⟨h.modules, ?_, ?_, ?_, fun id parent => (h.smaller_openScope kind id parent).1,
    fun id parent => (h.smaller_openScope kind id parent).2, .outside ?_, h.current,
    h.used, h.explicitLocals⟩
  · intro i j hij
    rcases ScopeMap.update_cases hij with ⟨rfl, ⟨⟩⟩ | hij
    · refine ⟨_, _, Array.getElem?_push_size, Array.getElem?_push_size, rfl, ?_, .empty, rfl, rfl, rfl⟩
      exact hext.scopeRel h.top
    · obtain ⟨s, s', hs, hs', hss⟩ := h.scopes hij
      exact ⟨s, s', getElem?_openScope hs kind, getElem?_openScope hs' kind, hss.kind, hext.scopeRel hss.parent,
        hss.symbols, hss.locals, hss.counter, hss.exit⟩
  · intro i s' hi
    rcases ScopeMap.update_cases hi with ⟨-, ⟨⟩⟩ | hi
    obtain ⟨s, hs, hempty, hexit, hparent⟩ := h.passes hi
    exact ⟨s, getElem?_openScope hs kind, hempty, hexit, hext.scopeRel hparent⟩
  · intro i i' j hij hij'
    rcases ScopeMap.update_cases hij with ⟨rfl, ⟨⟩⟩ | hij <;>
      rcases ScopeMap.update_cases hij' with ⟨rfl, hj⟩ | hij'
    · rfl
    · exact absurd (h.lt_scopes hij').2 (Nat.lt_irrefl _)
    · cases hj
      exact absurd (h.lt_scopes hij).2 (Nat.lt_irrefl _)
    · exact h.injective hij hij'
  · exact .cons (Function.update_self _ _ _) (h.activeScopes.imp fun _ _ hij => hext _ _ hij)

/-- A pass that is written out on the other side has a scope on this side only. -/
theorem enterPass (hexit : u.topScope?.bind (·.exit) = none) (n : Int64) :
    ((t.openScope .pass).modifyTop fun s => { s with counter := n }).Alike K
      (Function.update π t.nextScope (some (.pass u.top?))) (some t.nextScope) u := by
  have hext := ScopeMap.Extends.update h.fresh (.pass u.top?)
  have hcases {i j : Nat} (hij : Function.update π t.nextScope (some (.pass u.top?)) i = some (.scope j)) :
      π i = some (.scope j) := (ScopeMap.update_cases hij).resolve_left fun h => nomatch h.2
  have hscopes {i : Nat} {s : Scope} (hs : t.scopes[i]? = some s) :
      ((t.openScope .pass).modifyTop fun s => { s with counter := n }).scopes[i]? = some s := by
    have hi := (Array.getElem?_eq_some_iff.1 hs).1
    show ((t.scopes.push _).modify t.scopes.size _)[i]? = _
    rw [Array.getElem?_modify, if_neg (by omega), Array.getElem?_push, if_neg (by omega)]
    exact hs
  refine ⟨h.modules, ?_, ?_, fun hij hij' => h.injective (hcases hij) (hcases hij'), ?_, h.smaller', ?_, h.current,
    h.used, h.explicitLocals⟩
  · intro i j hij
    obtain ⟨s, s', hs, hs', hss⟩ := h.scopes (hcases hij)
    exact ⟨s, s', hscopes hs, hs', hss.kind, hext.scopeRel hss.parent, hss.symbols, hss.locals, hss.counter, hss.exit⟩
  · intro i s' hi
    rcases ScopeMap.update_cases hi with ⟨rfl, ⟨⟩⟩ | hi
    · refine ⟨{ kind := .pass, parent := t.top?, counter := n }, ?_, rfl, rfl, hext.scopeRel h.top⟩
      show ((t.scopes.push _).modify t.scopes.size _)[t.scopes.size]? = _
      rw [Array.getElem?_modify, if_pos rfl, Array.getElem?_push_size]
      rfl
    · obtain ⟨s, hs, hempty, hexit, hparent⟩ := h.passes hi
      exact ⟨s, hscopes hs, hempty, hexit, hext.scopeRel hparent⟩
  · intro id parent hp
    have hparent : ((t.openScope .pass).modifyTop fun s => { s with counter := n }).parent? id =
        (t.openScope .pass).parent? id :=
      parent?_modifyScope (f := fun s => { s with counter := n }) (t.openScope .pass) t.scopes.size (fun _ => rfl) id
    rw [hparent] at hp
    exact (h.smaller_openScope .pass id parent).1 hp
  · have hactive : ((t.openScope .pass).modifyTop fun s => { s with counter := n }).active =
        t.nextScope :: t.active := rfl
    exact .inside hactive (Function.update_self _ _ _) (h.activeScopes.imp fun _ _ hij => hext _ _ hij) hexit

theorem closeScope (keep : Bool) : (t.closeScope keep).Alike K π none (u.closeScope keep) := by
  unfold SymbolTable.closeScope
  match t.active, u.active, h.activeScopes with
  | _, _, .nil => exact h
  | _ :: outer, _ :: outer', .cons hij houter =>
    have hclosed : Alike K π none { t with active := outer } { u with active := outer' } :=
      ⟨h.modules, h.scopes, h.passes, h.injective, h.smaller, h.smaller', .outside houter, h.current, h.used,
        h.explicitLocals⟩
    dsimp only
    split
    · exact hclosed
    · exact hclosed.modifyScope hij (fun _ => rfl) (fun _ => rfl) fun s s' hs =>
        { hs with symbols := .empty }

end Alike

theorem Alike.leavePass (h : t.Alike K π (some id) u) (keep : Bool) : (t.closeScope keep).Alike K π none u := by
  cases h.active with
  | @inside _ outer hactive hid houter _ =>
  have hclosed : Alike K π none { t with active := outer } u :=
    ⟨h.modules, h.scopes, h.passes, h.injective, h.smaller, h.smaller', .outside houter, h.current, h.used,
      h.explicitLocals⟩
  unfold SymbolTable.closeScope
  rw [hactive]
  dsimp only
  split
  · exact hclosed
  refine ⟨h.modules, ?_, ?_, h.injective, ?_, h.smaller', .outside houter, h.current, h.used, h.explicitLocals⟩
  · intro i j hij
    have hne : id ≠ i := by
      rintro rfl
      cases hid.symm.trans hij
    obtain ⟨s, s', hs, hs', hss⟩ := h.scopes hij
    refine ⟨s, s', ?_, hs', hss⟩
    show (t.scopes.modify id _)[i]? = some s
    rw [Array.getElem?_modify, if_neg hne]
    exact hs
  · intro i s' hi
    obtain ⟨s, hs, hempty, hexit, hparent⟩ := h.passes hi
    show ∃ s, (t.scopes.modify id _)[i]? = some s ∧ _
    rw [Array.getElem?_modify, hs]
    split
    · exact ⟨_, rfl, rfl, hexit, hparent⟩
    · exact ⟨s, rfl, hempty, hexit, hparent⟩
  · intro i parent hp
    rw [parent?_modifyScope (f := fun s => { s with symbols := {} }) _ id (fun _ => rfl)] at hp
    exact h.smaller i parent hp

end SymbolTable

end SpectrumAsm
