/-
Variables that are set again.

A variable that is to be set is sought in the open scopes and the current module, nearest first, but not in
the modules around. What lies there is neither set nor in the way: a new variable hides it.
-/
import SpectrumAsm.Proofs.Visibility

namespace SpectrumAsm.SymbolTable

open Text

variable {t : SymbolTable} {slot : Slot} {name key : String} {s : Symbol}

/-- A symbol is written in one place, and nothing else changes. -/
structure Writes (t : SymbolTable) (slot : Slot) (key : String) (s : Symbol) (u : SymbolTable) : Prop where
  here : (u.symbolsAt slot).get? key = some s
  others : ∀ place other, (place, other) ≠ (slot, key) → (u.symbolsAt place).get? other = (t.symbolsAt place).get? other
  rest : u = { t with scopes := u.scopes, modules := u.modules }

theorem WellNested.writes (h : t.WellNested) (hopen : slot ∈ t.varSlots) {f : NameTable Symbol → NameTable Symbol}
    (hs : (f (t.symbolsAt slot)).get? key = some s)
    (hothers : ∀ other, other ≠ key → (f (t.symbolsAt slot)).get? other = (t.symbolsAt slot).get? other) :
    t.Writes slot key s (t.modifySymbols slot f) where
  here := by rw [symbolsAt_modifySymbols_open h hopen, hs]
  others place other hne := by
    by_cases hplace : place = slot
    · subst hplace
      rw [symbolsAt_modifySymbols_open h hopen]
      exact hothers other fun hother => hne (hother ▸ rfl)
    · rw [symbolsAt_modifySymbols_other f hplace]
  rest := by cases slot <;> rfl

/-- The nearest place for variables that has a name. -/
def home? (t : SymbolTable) (key : String) : Option Slot := t.varSlots.find? (t.isTaken · key)

theorem findSome?_home {slots : List Slot} (hslot : slots.find? (t.isTaken · key) = some slot)
    (hs : (t.symbolsAt slot).get? key = some s) :
    (slots.findSome? fun slot => (t.symbolsAt slot).get? key) = some s := by
  obtain ⟨-, nearer, farther, rfl, hfree⟩ := List.find?_eq_some_iff_append.1 hslot
  refine List.findSome?_eq_some_iff.2 ⟨nearer, slot, farther, rfl, hs, fun other hother => ?_⟩
  have := hfree other hother
  rw [Bool.not_eq_true'] at this
  exact Option.not_isSome_iff_eq_none.1 (Bool.eq_false_iff.1 this)

/-- The symbol of the nearest place for variables is what a name means, and `setVar` writes that very
symbol, or refuses to if it is no variable. If none of these places has the name, `setVar` makes a new variable
in the innermost one, also if the name means something in a module farther out. -/
theorem Built.setVar_home (h : t.Built) (hrooted : (SymbolRef.parse name).rooted = false) (value : Value)
    (pos : Position) :
    (∀ slot, t.home? (upcase name) = some slot → ∃ s, (t.symbolsAt slot).get? (upcase name) = some s ∧
      t.lookupHere (.parse name) = some s ∧
      (s.kind = .var → ∃ u, t.setVar name value pos = .ok u ∧
        t.Writes slot (upcase name) { s with value := some value } u) ∧
      (s.kind ≠ .var → t.setVar name value pos = .error .varRedefine ∧ Fault.varRedefine.code = "Z0087" ∧
        ∀ a : Assembly, a.symbols = t → a.setVar name value = (.error .varRedefine, a))) ∧
    (t.home? (upcase name) = none → t.isTaken t.innermostSlot (upcase name) = false ∧
      ∃ u, t.setVar name value pos = .ok u ∧
        t.Writes t.innermostSlot (upcase name) ⟨upcase name, .var, some value, pos⟩ u) := by
  have hjoined := joined_parse hrooted
  unfold setVar Assembly.setVar home?
  dsimp only
  generalize upcase name = key at hjoined
  refine ⟨fun slot hhome => ?_, fun hnone => ?_⟩
  · have htaken := List.find?_some hhome
    obtain ⟨s, hs⟩ := Option.isSome_iff_exists.1 htaken
    have hslot : t.varSlot key = if s.kind == .var then .ok slot else .error .varRedefine := by
      rw [varSlot, hhome]
      dsimp only
      rw [hs]
    refine ⟨s, hs, h.wellNested.lookupHere_nearest hrooted (hjoined ▸ findSome?_home hhome hs), fun hkind => ?_,
      fun hkind => ?_⟩
    · rw [hslot, hkind]
      refine ⟨t.assign slot key value, congrArg Except.ok (if_pos htaken),
        h.wellNested.writes (List.mem_of_find?_eq_some hhome) ?_ fun other => NameTable.get?_modify_other _ _⟩
      rw [NameTable.get?_modify_self, hs, Option.map_some, hkind]
    · rw [beq_eq_false_iff_ne.2 hkind] at hslot
      refine ⟨by rw [hslot]; rfl, rfl, ?_⟩
      rintro a rfl
      rw [hslot]
      rfl
  · have hinner : t.innermostSlot ∈ t.varSlots := by
      obtain ⟨farther, hsplit⟩ := t.varSlots_innermost
      rw [hsplit]
      exact List.mem_cons_self
    have hfree : t.isTaken t.innermostSlot key = false := Bool.eq_false_iff.2 (List.find?_eq_none.1 hnone _ hinner)
    rw [varSlot, hnone]
    refine ⟨hfree, t.addSymbol t.innermostSlot ⟨key, .var, some value, pos⟩,
      congrArg Except.ok (if_neg (Bool.eq_false_iff.1 hfree)), ?_⟩
    exact h.wellNested.writes hinner (NameTable.get?_insert_self _ _ _) fun other => NameTable.get?_insert_other _ _

/-- In a module inside of the one that has a variable the variable is seen, but a new one is made. -/
theorem Built.setVar_home_inner : ∃ t u : SymbolTable, t.Built ∧ t.current = 1 ∧ t.home? "N" = none ∧
    t.lookupHere (.parse "n") = some ⟨"N", .var, some (.int 1), ⟨0, 1⟩⟩ ∧ t.setVar "n" (.int 2) ⟨0, 2⟩ = .ok u ∧
    t.Writes (.module 1) "N" ⟨"N", .var, some (.int 2), ⟨0, 2⟩⟩ u := by
  have hset : (new false).setVar "n" (.int 1) ⟨0, 1⟩ = .ok ((new false).storeVar (.module 0) "N" (.int 1) ⟨0, 1⟩) := rfl
  have hbuilt := Relation.ReflTransGen.single (Operation.setVar hset)
  obtain ⟨t, henter⟩ : ∃ t, ((new false).storeVar (.module 0) "N" (.int 1) ⟨0, 1⟩).enterModule "M" = .ok t := ⟨_, rfl⟩
  have ht : t.Built := ⟨false, .tail hbuilt (.enterModule henter)⟩
  cases henter
  obtain ⟨-, u, hu⟩ := (@setVar_home _ "n" ht rfl (.int 2) ⟨0, 2⟩).2 rfl
  exact ⟨_, u, ht, rfl, rfl, rfl, hu⟩

end SpectrumAsm.SymbolTable
