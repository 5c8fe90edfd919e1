/-
What references mean in two tables of the same shape.

A reference is looked up along the scopes and modules around it. If two tables agree in their frames and their
symbols are related place by place, then everything that is looked up is related in the same way.
-/
import Mathlib.Data.List.Basic
import SpectrumAsm.Proofs.Evaluating
import SpectrumAsm.Proofs.OpenPlaces

namespace SpectrumAsm

open List Option SpectrumAsm.Module

variable {id n : Nat} {scope : Option Nat}

theorem takeWhile_descending {ids : List Nat} (h : ids.Pairwise (· > ·)) {low : Nat} (hm : low ∈ ids) :
    ids.takeWhile (low ≤ ·) = ids.takeWhile (low + 1 ≤ ·) ++ [low] := by
  induction h with
  | nil => cases hm
  | @cons id ids hid _ ih =>
    rcases mem_cons.1 hm with rfl | hm
    · have hrest : ids.takeWhile (low ≤ ·) = [] := by
        cases ids with
        | nil => rfl
        | cons j ids =>
          have hj : ¬ low ≤ j := Nat.not_le_of_gt (hid j mem_cons_self)
          exact takeWhile_cons_of_neg (by simpa using hj)
      rw [takeWhile_cons_of_pos (by simp), hrest, takeWhile_cons_of_neg (by simp), nil_append]
    · have hlt : low < id := hid low hm
      rw [takeWhile_cons_of_pos (by rw [decide_eq_true_iff]; omega),
        takeWhile_cons_of_pos (by rw [decide_eq_true_iff]; omega), ih hm, cons_append]

namespace SymbolTable

variable {t u : SymbolTable}

/-! ## Chains -/

theorem parent?_frame (t : SymbolTable) (id : Nat) : t.parent? id = (t.scopes[id]?.map Scope.frame).bind (·.2.1) := by
  unfold parent?
  cases t.scopes[id]? <;> rfl

theorem mem_chain_self (t : SymbolTable) (id : Nat) : id ∈ t.chain (some id) := mem_cons_self

section
variable (hp : ∀ id parent, t.parent? id = some parent → parent < id)
include hp

theorem le_of_mem_outward {j : Nat} (hj : j ∈ t.outward n id) : j ≤ id := by
  induction n generalizing id with
  | zero => cases hj
  | succ n ih =>
    rcases mem_cons.1 hj with rfl | hj
    · exact Nat.le_refl _
    · cases hparent : t.parent? id with
      | none =>
        rw [hparent] at hj
        cases hj
      | some parent =>
        rw [hparent] at hj
        exact Nat.le_trans (ih hj) (Nat.le_of_lt (hp id parent hparent))

theorem lt_of_mem_chain (hs : ∀ id, scope = some id → id < n) : ∀ j ∈ t.chain scope, j < n := by
  intro j hj
  cases scope with
  | none => cases hj
  | some id => exact Nat.lt_of_le_of_lt (le_of_mem_outward hp hj) (hs id rfl)

theorem chain_descending (scope : Option Nat) : (t.chain scope).Pairwise (· > ·) := by
  have houtward (n id : Nat) : (t.outward n id).Pairwise (· > ·) := by
    induction n generalizing id with
    | zero => exact .nil
    | succ n ih =>
      unfold outward
      cases hparent : t.parent? id with
      | none => exact pairwise_singleton _ id
      | some parent =>
        refine .cons (fun j hj => ?_) (ih parent)
        exact Nat.lt_of_le_of_lt (le_of_mem_outward hp hj) (hp id parent hparent)
  cases scope with
  | none => exact .nil
  | some id => exact houtward _ id

theorem outward_stable {m : Nat} (hn : id < n) (hm : id < m) : t.outward n id = t.outward m id := by
  induction n generalizing m id with
  | zero => omega
  | succ n ih =>
    cases m with
    | zero => omega
    | succ m =>
      unfold outward
      cases hparent : t.parent? id with
      | none => rfl
      | some parent =>
        have := hp id parent hparent
        exact congrArg (id :: ·) (ih (by omega) (by omega))

theorem chain_cons (id : Nat) : t.chain (some id) = id :: t.chain (t.parent? id) := by
  show t.outward (id + 1) id = _
  unfold outward
  cases hparent : t.parent? id with
  | none => rfl
  | some parent =>
    have := hp id parent hparent
    exact congrArg (id :: ·) (outward_stable hp (by omega) (by omega))

end

theorem head?_chain (t : SymbolTable) (scope : Option Nat) : (t.chain scope).head? = scope := by
  cases scope <;> rfl

theorem loopCounter?_eq (h : ∀ j ∈ t.chain scope, u.scopes[j]?.map Scope.frame = t.scopes[j]?.map Scope.frame) :
    u.loopCounter? scope = t.loopCounter? scope := by
  have hchain : u.chain scope = t.chain scope := by
    refine chain_eq fun j hj => ?_
    rw [parent?_frame, parent?_frame, h j hj]
  unfold loopCounter?
  rw [hchain, ← head?_filterMap, ← head?_filterMap]
  refine congrArg head? (filterMap_congr fun j hj => ?_)
  have hframe := h j hj
  cases hu : u.scopes[j]? <;> cases ht : t.scopes[j]? <;> rw [hu, ht] at hframe
  · cases hframe
  · cases hframe
  · exact congrArg (fun x => if x.1 == .pass then some x.2.2 else none) (some.inj hframe)

theorem get?_scope (t : SymbolTable) (id : Nat) (name : String) :
    (t.symbolsAt (.scope id)).get? name = t.scopes[id]?.bind fun s => s.symbols.get? name := by
  simp only [symbolsAt]
  cases t.scopes[id]? <;> rfl

theorem get?_module (t : SymbolTable) (id : Nat) (name : String) :
    (t.symbolsAt (.module id)).get? name = t.modules[id]?.bind fun m => m.symbols.get? name := by
  simp only [symbolsAt]
  cases t.modules[id]? <;> rfl

theorem lookupScopes_eq (t : SymbolTable) (scope : Option Nat) (name : String) : t.lookupScopes scope name =
      (t.chain scope).findSome? fun id => (t.symbolsAt (.scope id)).get? name := by
  simp [lookupScopes, get?_scope]

theorem moduleChain_eq (h : u.modules.map frame = t.modules.map frame) (id : Nat) :
    u.moduleChain id = t.moduleChain id := by
  refine moduleChain_congr (fun id => ?_) id
  have hid : u.modules[id]?.map frame = t.modules[id]?.map frame := by
    rw [← Array.getElem?_map, ← Array.getElem?_map, h]
  have hp := congrArg (·.bind fun x => x.2.1) hid
  simpa only [bind_map, Function.comp_def, frame] using hp

/-! ## Related tables -/

section
variable {R : Option Symbol → Option Symbol → Prop}
  (hR : ∀ s s', R s s' → (s = none ∧ s' = none) ∨ s.isSome = true ∧ s'.isSome = true)
include hR

theorem findSome?_related (hnone : R none none) {ids : List Nat} {f f' : Nat → Option Symbol}
    (h : ∀ id ∈ ids, R (f id) (f' id)) : R (ids.findSome? f) (ids.findSome? f') := by
  induction ids with
  | nil => exact hnone
  | cons id ids ih =>
    have hid := h id mem_cons_self
    rw [findSome?_cons, findSome?_cons]
    rcases hR _ _ hid with ⟨hn, hn'⟩ | ⟨hs, hs'⟩
    · rw [hn, hn']
      exact ih fun j hj => h j (mem_cons_of_mem id hj)
    · obtain ⟨x, hx⟩ := isSome_iff_exists.1 hs
      obtain ⟨x', hx'⟩ := isSome_iff_exists.1 hs'
      rw [hx, hx'] at hid ⊢
      exact hid

theorem orElse_related {s s' r r' : Option Symbol} (hr : R r r') : R s s' →
    R (match s with | some x => some x | none => r) (match s' with | some x => some x | none => r') := by
  intro h
  rcases hR _ _ h with ⟨rfl, rfl⟩ | ⟨hs, hs'⟩
  · exact hr
  · obtain ⟨x, rfl⟩ := isSome_iff_exists.1 hs
    obtain ⟨x', rfl⟩ := isSome_iff_exists.1 hs'
    exact h

variable (hnone : R none none)
  (hsymbols : ∀ slot key, R ((t.symbolsAt slot).get? key) ((u.symbolsAt slot).get? key))
  (hmodules : u.modules.map frame = t.modules.map frame)
include hnone hsymbols hmodules

theorem resolveIn_related (id : Nat) (path : List String) : R (t.resolveIn id path) (u.resolveIn id path) := by
  have hframe (id : Nat) : u.modules[id]?.map frame = t.modules[id]?.map frame := by
    rw [← Array.getElem?_map, ← Array.getElem?_map, hmodules]
  induction path generalizing id with
  | nil =>
    have hat := hsymbols (.module id) ""
    rwa [get?_module, get?_module] at hat
  | cons part rest ih =>
    have hat := hsymbols (.module id) (".".intercalate (part :: rest))
    have hid := hframe id
    rw [get?_module, get?_module] at hat
    unfold resolveIn
    cases ht : t.modules[id]? with
    | none =>
      rw [ht, map_none, map_eq_none_iff] at hid
      rw [hid]
      exact hnone
    | some m =>
      rw [ht, map_some, map_eq_some_iff] at hid
      obtain ⟨m', hu, hsame⟩ := hid
      simp only [frame, Prod.mk.injEq] at hsame
      rw [ht, hu] at hat
      rw [hu]
      refine orElse_related hR ?_ hat
      -- An inner module is entered under the same name in both tables.
      rw [hsame.2.2]
      split
      · exact hnone
      · cases m.children.get? part with
        | none => exact hnone
        | some child => exact ih child

theorem lookup_related (hscopes : u.scopes.map Scope.frame = t.scopes.map Scope.frame) (ref : SymbolRef)
    (scope : Option Nat) (module : Nat) : R (t.lookup ref scope module) (u.lookup ref scope module) := by
  have hchain : u.chain scope = t.chain scope := by
    refine chain_eq fun j _ => ?_
    rw [parent?_frame, parent?_frame, ← Array.getElem?_map, ← Array.getElem?_map, hscopes]
  unfold lookup
  split
  · exact resolveIn_related hR hnone hsymbols hmodules 0 ref.path
  · rw [lookupScopes_eq, lookupScopes_eq, hchain, moduleChain_eq hmodules]
    refine orElse_related hR ?_ ?_
    · exact findSome?_related hR hnone fun id _ => resolveIn_related hR hnone hsymbols hmodules id ref.path
    · exact findSome?_related hR hnone fun id _ => hsymbols (.scope id) ref.joined

end

end SymbolTable

end SpectrumAsm
