/-
Scopes, modules and macros are nested properly.

A nested walk (`Nested`) consists of parts that leave the open scopes, the current module and the nesting of
macros alone, and of parts that open something, go on nested, and close it again. It ends at the level it
began at, and the scopes it opens have consecutive numbers.
-/
import SpectrumAsm.Proofs.Assigning
import SpectrumAsm.Proofs.Steps

namespace SpectrumAsm

open List SymbolTable

variable {t u : SymbolTable} {name : String}

/-! ## Parts that open nothing -/

/-- Open scopes, modules and the nesting of macros are the same, and symbols keep their kind
and do not lose their values. -/
structure Even (a b : Assembly) : Prop extends a.symbols.SameFrames b.symbols where
  depth : b.macroDepth = a.macroDepth
  kept : ∀ slot key s, (a.symbols.symbolsAt slot).get? key = some s →
    ∃ s', (b.symbols.symbolsAt slot).get? key = some s' ∧ s.Remains s'
  exits : ∀ id, a.symbols.top? ≠ some id → b.symbols.exit? id = a.symbols.exit? id
  edits : Edits a b

namespace Even

variable {a b c : Assembly}

theorem trans (h : Even a b) (h' : Even b c) : Even a c where
  toSameFrames := h.toSameFrames.trans h'.toSameFrames
  depth := h'.depth.trans h.depth
  kept slot key s hs := by
    obtain ⟨x, hx, hremains⟩ := h.kept slot key s hs
    obtain ⟨y, hy, hremains'⟩ := h'.kept slot key x hx
    exact ⟨y, hy, hremains.trans hremains'⟩
  exits id hid := (h'.exits id (by rwa [h.top?])).trans (h.exits id hid)
  edits := h.edits.trans h'.edits

theorem ofTame (h : Tame a b) : Even a b where
  toSameFrames := h.table.toSameFrames
  depth := h.depth
  kept slot key s hs := by
    obtain ⟨x, hx, hremains, -⟩ := h.table.kept slot key s hs
    exact ⟨x, hx, hremains⟩
  exits := h.table.exits
  edits := h.edits

theorem refl (a : Assembly) : Even a a := ofTame (.refl a)

theorem assign (a : Assembly) (slot : Slot) (key : String) (value : Value) :
    Even a { a with symbols := a.symbols.assign slot key value } where
  toSameFrames := a.symbols.sameFrames_modifySymbols slot (·.modify key fun s => { s with value := some value })
  depth := rfl
  kept other name s hs := by
    rcases a.symbols.symbolsAt_assign slot key value other name with h | ⟨x, hx, h⟩
    · exact ⟨s, h.trans hs, .refl s⟩
    · rw [hs] at hx
      cases hx
      exact ⟨_, h, rfl, fun _ => rfl⟩
  exits id _ := a.symbols.exit?_modifySymbols slot _ id
  edits := .same rfl

instance : IsPreorder Assembly Even where
  refl := refl
  trans _ _ _ := trans

theorem settling : Settling Even where
  asked h := .ofTame (Calm.ofAsked h).tame
  reportAt a fault pos := .ofTame (.note (.reportAt a fault pos) rfl)
  assign := assign
  setEntries _ _ _ := .ofTame (.ofEdits rfl rfl (.same rfl))
  patchBytes a segment offset bytes := .ofTame (.ofEdits rfl rfl (.patch a segment offset bytes))
  setPending _ _ := .ofTame (.ofEdits rfl rfl (.same rfl))

end Even

/-! ## Nested walks -/

/-- A walk that closes everything it opens, in the reverse order of opening. The list has the numbers
of the scopes that are opened, in order. -/
inductive Nested : Assembly → List Nat → Assembly → Prop where
  | even {a b : Assembly} (h : Even a b) : Nested a [] b
  | scope {a b : Assembly} {ids : List Nat} (kind : ScopeKind) (pass : Int64)
    (h : Nested (a.enterScope kind pass) ids b) : Nested a (a.symbols.nextScope :: ids) b.closeScope
  | module {a b : Assembly} {ids : List Nat} {name : String} {t : SymbolTable}
    (he : a.symbols.enterModule name = .ok t) (h : Nested { a with symbols := t } ids b) :
    Nested a ids { b with symbols := b.symbols.leaveModule }
  | deeper {a b : Assembly} {ids : List Nat}
    (h : Nested { a with macroDepth := a.macroDepth + 1 } ids b) :
    Nested a ids { b with macroDepth := b.macroDepth - 1 }
  | trans {a b c : Assembly} {ids more : List Nat} (h : Nested a ids b) (h' : Nested b more c) :
    Nested a (ids ++ more) c

/-- Two states at the same level. Symbols of open scopes keep their kind and do not lose their values. -/
structure Level (a b : Assembly) : Prop where
  active : b.symbols.active = a.symbols.active
  current : b.symbols.current = a.symbols.current
  depth : b.macroDepth = a.macroDepth
  parents : ∀ (id : Nat) (m : Module), a.symbols.modules[id]? = some m →
    ∃ m', b.symbols.modules[id]? = some m' ∧ m'.parent = m.parent
  nowhere : a.symbols.modules[a.symbols.current]? = none → b.symbols.modules[a.symbols.current]? = none
  kept : ∀ id ∈ a.symbols.active, id < a.symbols.nextScope → ∀ key s,
    (a.symbols.symbolsAt (.scope id)).get? key = some s →
      ∃ s', (b.symbols.symbolsAt (.scope id)).get? key = some s' ∧ s.Remains s'
  scopes : a.symbols.nextScope ≤ b.symbols.nextScope

namespace Level

variable {a b c : Assembly}

theorem trans (h : Level a b) (h' : Level b c) : Level a c where
  active := h'.active.trans h.active
  current := h'.current.trans h.current
  depth := h'.depth.trans h.depth
  parents id m hm := by
    obtain ⟨m', hm', hp⟩ := h.parents id m hm
    obtain ⟨m'', hm'', hp'⟩ := h'.parents id m' hm'
    exact ⟨m'', hm'', hp'.trans hp⟩
  nowhere hn := by
    rw [← h.current]
    exact h'.nowhere (by rw [h.current]; exact h.nowhere hn)
  kept id hid hlt key s hs := by
    obtain ⟨x, hx, hremains⟩ := h.kept id hid hlt key s hs
    obtain ⟨y, hy, hremains'⟩ := h'.kept id (h.active ▸ hid) (Nat.lt_of_lt_of_le hlt h.scopes) key x hx
    exact ⟨y, hy, hremains.trans hremains'⟩
  scopes := Nat.le_trans h.scopes h'.scopes

theorem even (h : Even a b) : Level a b where
  active := h.active
  current := h.current
  depth := h.depth
  parents id m hm := by
    have hat := congrArg (·[id]?) h.modules
    simp only [Array.getElem?_map, hm, Option.map_some] at hat
    obtain ⟨m', hm', hframe⟩ := Option.map_eq_some_iff.1 hat
    exact ⟨m', hm', congrArg (·.2.1) hframe⟩
  nowhere hn := by
    have hsize := congrArg Array.size h.modules
    simp only [Array.size_map] at hsize
    rw [Array.getElem?_eq_none_iff] at hn ⊢
    omega
  kept id _ _ key s hs := h.kept (.scope id) key s hs
  scopes := Nat.le_of_eq h.nextScope.symm

end Level

namespace SymbolTable

theorem nextScope_enterScope (a : Assembly) (kind : ScopeKind) (pass : Int64) :
    (a.enterScope kind pass).symbols.nextScope = a.symbols.nextScope + 1 := by
  simp [Assembly.enterScope, openScope, modifyTop, top?, modifyScope, nextScope]

theorem scopes_entered (a : Assembly) (kind : ScopeKind) (pass : Int64) :
    (a.enterScope kind pass).symbols.scopes[a.symbols.nextScope]? =
      some { kind, parent := a.symbols.top?, counter := pass } := by
  simp only [Assembly.enterScope, openScope, modifyTop, top?, head?_cons, modifyScope, nextScope,
    Array.getElem?_modify, Array.getElem?_push_size, if_pos, Option.map_some]

theorem scopes_enterScope (a : Assembly) (kind : ScopeKind) (pass : Int64) {id : Nat} (h : id < a.symbols.nextScope) :
    (a.enterScope kind pass).symbols.scopes[id]? = a.symbols.scopes[id]? := by
  have hne : a.symbols.scopes.size ≠ id := Nat.ne_of_gt h
  simp [Assembly.enterScope, openScope, modifyTop, top?, modifyScope, Array.getElem?_modify,
    Array.getElem?_push, hne, hne.symm]

theorem symbolsAt_closeScope {keep : Bool} {slot : Slot} (h : ∀ id, t.top? = some id → slot ≠ .scope id) :
    (t.closeScope keep).symbolsAt slot = t.symbolsAt slot := by
  obtain ⟨_, hclosed, rfl | ⟨id, htop, rfl⟩⟩ := t.closeScope_eq keep <;> rw [hclosed]
  · cases slot <;> rfl
  · cases slot with
    | module k => rfl
    | scope k =>
      have hk : id ≠ k := fun he => h id htop (by rw [he])
      simp [symbolsAt, Array.getElem?_modify, if_neg hk]

section
variable (t : SymbolTable) (keep : Bool)

theorem active_closeScope : (t.closeScope keep).active = t.active.tail := by
  obtain ⟨_, hclosed, -⟩ := t.closeScope_eq keep
  rw [hclosed]

theorem frame_closeScope : (t.closeScope keep).scopes.map Scope.frame = t.scopes.map Scope.frame := by
  obtain ⟨_, hclosed, rfl | ⟨id, -, rfl⟩⟩ := t.closeScope_eq keep <;> rw [hclosed]
  exact map_modify_of_eq (f := fun s : Scope => { s with symbols := {} }) fun _ => rfl

theorem nextScope_closeScope : (t.closeScope keep).nextScope = t.nextScope := by
  simpa [nextScope] using congrArg Array.size (t.frame_closeScope keep)

theorem modules_closeScope : (t.closeScope keep).modules = t.modules ∧ (t.closeScope keep).current = t.current := by
  obtain ⟨_, hclosed, -⟩ := t.closeScope_eq keep
  rw [hclosed]
  exact ⟨rfl, rfl⟩

end

section
variable (h : t.enterModule name = .ok u)
include h

theorem scopes_enterModule : u.scopes = t.scopes := by
  rcases enterModule_eq h with ⟨-, rfl⟩ | ⟨_, -, -, rfl⟩ <;> rfl

theorem nextScope_enterModule : u.nextScope = t.nextScope := congrArg Array.size (scopes_enterModule h)

theorem active_enterModule : u.active = t.active := by
  rcases enterModule_eq h with ⟨-, rfl⟩ | ⟨_, -, -, rfl⟩ <;> rfl

end

end SymbolTable

namespace Level

variable {a b : Assembly}

/-- A scope that is opened and closed again leaves the others as they were. -/
theorem scope {kind : ScopeKind} {pass : Int64} (h : Level (a.enterScope kind pass) b) : Level a b.closeScope := by
  have hactive : b.symbols.active = a.symbols.nextScope :: a.symbols.active := h.active
  have htop : b.symbols.top? = some a.symbols.nextScope := by rw [top?, hactive]; rfl
  obtain ⟨keep, hclosed⟩ : ∃ keep, b.closeScope.symbols = b.symbols.closeScope keep := ⟨_, rfl⟩
  obtain ⟨hmodules, hcurrent⟩ := b.symbols.modules_closeScope keep
  have hsame := b.symbols.nextScope_closeScope keep
  rw [← hclosed] at hmodules hcurrent hsame
  constructor
  · exact (b.symbols.active_closeScope _).trans (by rw [hactive]; rfl)
  · exact hcurrent.trans h.current
  · exact h.depth
  · intro id m hm
    obtain ⟨m', hm', hp⟩ := h.parents id m hm
    exact ⟨m', by rw [hmodules]; exact hm', hp⟩
  · intro hn
    rw [hmodules]
    exact h.nowhere hn
  · intro id hid hlt key s hs
    have hbefore : (a.enterScope kind pass).symbols.symbolsAt (.scope id) = a.symbols.symbolsAt (.scope id) := by
      simp [symbolsAt, scopes_enterScope a kind pass hlt]
    obtain ⟨s', hs', hremains⟩ := h.kept id (mem_cons_of_mem _ hid)
      (by rw [nextScope_enterScope]; omega) key s (hbefore ▸ hs)
    refine ⟨s', ?_, hremains⟩
    have hafter : b.closeScope.symbols.symbolsAt (.scope id) = b.symbols.symbolsAt (.scope id) := by
      refine symbolsAt_closeScope fun k hk he => ?_
      rw [htop] at hk
      cases hk
      cases he
      omega
    exact (congrArg (·.get? key) hafter).trans hs'
  · have hle := h.scopes
    rw [nextScope_enterScope] at hle
    exact Nat.le_trans (by omega) (Nat.le_of_eq hsame.symm)

theorem module (he : a.symbols.enterModule name = .ok t) (h : Level { a with symbols := t } b) :
    Level a { b with symbols := b.symbols.leaveModule } := by
  rcases enterModule_eq he with ⟨hnone, rfl⟩ | ⟨outer, houter, -, ht⟩
  · have hstay : b.symbols.leaveModule = b.symbols := by
      have hlost := h.nowhere hnone
      rw [leaveModule, h.current, hlost]
      rfl
    rw [hstay]
    exact ⟨h.active, h.current, h.depth, h.parents, h.nowhere, h.kept, h.scopes⟩
  -- the modules keep theirs around them, and the new one is in the current one
  have hparent (id : Nat) : t.modules[id]?.map (·.parent) =
      if id = a.symbols.modules.size then some (some a.symbols.current) else a.symbols.modules[id]?.map (·.parent) := by
    rw [ht, ← Array.getElem?_map, map_modify_of_eq fun _ => by rfl, Array.getElem?_map, Array.getElem?_push]
    split <;> rfl
  have hback : b.symbols.leaveModule = { b.symbols with current := a.symbols.current } := by
    obtain ⟨inner, hinner, hin⟩ := Option.map_eq_some_iff.1 ((hparent _).trans (if_pos rfl))
    obtain ⟨m', hm', hp⟩ := h.parents _ inner hinner
    have hnow : b.symbols.current = a.symbols.modules.size := h.current.trans (by rw [ht])
    rw [leaveModule, hnow, hm', Option.bind_some, hp, hin]
  rw [hback]
  refine ⟨h.active.trans (active_enterModule he), rfl, h.depth, fun id m hm => ?_, fun hn => ?_,
    fun id hid hlt key s hs => ?_, ?_⟩
  · have hold := hparent id
    rw [if_neg (Nat.ne_of_lt (Array.getElem?_eq_some_iff.1 hm).1), hm] at hold
    obtain ⟨m', hm', hp⟩ := Option.map_eq_some_iff.1 hold
    obtain ⟨m'', hm'', hp'⟩ := h.parents id m' hm'
    exact ⟨m'', hm'', hp'.trans hp⟩
  · rw [houter] at hn
    cases hn
  · refine h.kept id (active_enterModule he ▸ hid) ((nextScope_enterModule he).symm ▸ hlt) key s ?_
    rwa [symbolsAt_enterModule he]
  · exact nextScope_enterModule he ▸ h.scopes

end Level

namespace Nested

variable {a b : Assembly} {ids : List Nat}

theorem level (h : Nested a ids b) : Level a b := by
  induction h with
  | even h => exact .even h
  | scope kind pass _ ih => exact ih.scope
  | module he _ ih => exact ih.module he
  | deeper _ ih =>
    refine ⟨ih.active, ih.current, ?_, ih.parents, ih.nowhere, ih.kept, ih.scopes⟩
    have hdepth := ih.depth
    dsimp only at hdepth ⊢
    omega
  | trans _ _ ih ih' => exact ih.trans ih'

theorem numbered (h : Nested a ids b) : ids = range' a.symbols.nextScope ids.length ∧
      b.symbols.nextScope = a.symbols.nextScope + ids.length := by
  induction h with
  | even h => exact ⟨rfl, h.nextScope⟩
  | @scope a b ids kind pass _ ih =>
    obtain ⟨hids, hnext⟩ := ih
    rw [nextScope_enterScope] at hids hnext
    refine ⟨?_, ?_⟩
    · rw [length_cons, range'_succ, ← hids]
    · refine (b.symbols.nextScope_closeScope _).trans ?_
      rw [hnext, length_cons]
      omega
  | @module a b ids name t he _ ih =>
    have hnext := nextScope_enterModule he
    have hleave : b.symbols.leaveModule.nextScope = b.symbols.nextScope := by
      obtain ⟨_, hleft⟩ := b.symbols.leaveModule_eq
      rw [hleft]
      rfl
    rw [hnext] at ih
    exact ⟨ih.1, hleave.trans ih.2⟩
  | deeper _ ih => exact ih
  | @trans a b c ids more _ _ ih ih' =>
    obtain ⟨hids, hnext⟩ := ih
    obtain ⟨hmore, hnext'⟩ := ih'
    rw [hnext] at hmore hnext'
    refine ⟨?_, ?_⟩
    · rw [length_append, ← range'_append_1, ← hids, ← hmore]
    · rw [hnext', length_append]
      omega

theorem edits (h : Nested a ids b) : Edits a b := by
  induction h with
  | even h => exact h.edits
  | scope kind pass _ ih | module he _ ih | deeper _ ih => exact ih.congr rfl rfl
  | trans _ _ ih ih' => exact ih.trans ih'

end Nested

end SpectrumAsm
