/-
Symbols without a value.

Only a constant whose expression has to wait is entered without a value, so the blank symbols of a table are
always among those of the table before, but for the one just entered.
-/
import SpectrumAsm.Proofs.Moves
import SpectrumAsm.Proofs.OpenPlaces

namespace SpectrumAsm

open Array

variable {name : String} {s : Symbol} {value : Value}

namespace NameTable

variable {α : Type}

theorem mem_entries_modify {t : NameTable α} {f : α → α} {e : String × α} (h : e ∈ (t.modify name f).entries) :
    (e.1 ≠ name ∧ e ∈ t.entries) ∨ e.1 = name ∧ ∃ x, (name, x) ∈ t.entries ∧ e.2 = f x := by
  obtain ⟨⟨key, x⟩, hx, rfl⟩ := List.mem_map.1 h
  by_cases hk : key = name
  · subst hk
    exact .inr ⟨by simp, x, hx, by simp⟩
  · simp only [beq_eq_false_iff_ne.2 hk, Bool.false_eq_true, if_false]
    exact .inl ⟨hk, hx⟩

theorem mem_entries_insert {t : NameTable α} {x : α} {e : String × α}
    (h : e ∈ (t.insert name x).entries) : e = (name, x) ∨ e ∈ t.entries := by
  unfold insert at h
  split at h
  · rcases mem_entries_modify h with ⟨-, h⟩ | ⟨hk, _, -, hx⟩
    · exact .inr h
    · exact .inl (Prod.ext hk hx)
  · rcases List.mem_append.1 h with h | h
    · exact .inr h
    · exact .inl (List.mem_singleton.1 h)

theorem mem_foldl_insert {t : NameTable α} {entries : List (String × α)} {e : String × α}
    (h : e ∈ (entries.foldl (fun t e => t.insert e.1 e.2) t).entries) : e ∈ entries ∨ e ∈ t.entries := by
  induction entries generalizing t with
  | nil => exact .inr h
  | cons x entries ih =>
    rcases ih h with hm | hm
    · exact .inl (List.mem_cons_of_mem x hm)
    · rcases mem_entries_insert hm with rfl | hm
      · exact .inl List.mem_cons_self
      · exact .inr hm

end NameTable

namespace SymbolTable

def Blank (t : SymbolTable) (slot : Slot) (key : String) : Prop :=
  ∃ s, (key, s) ∈ (t.symbolsAt slot).entries ∧ s.value = none

variable {t u : SymbolTable} {slot other : Slot} {key : String}

theorem Blank.congr (h : u.symbolsAt slot = t.symbolsAt slot) (hb : u.Blank slot key) : t.Blank slot key := by
  unfold Blank at hb ⊢
  rwa [h] at hb

theorem mem_modifySymbols {f : NameTable Symbol → NameTable Symbol} {e : String × Symbol}
    (h : e ∈ ((t.modifySymbols slot f).symbolsAt other).entries) : (other = slot ∧ e ∈ (f (t.symbolsAt slot)).entries) ∨
      (other ≠ slot ∧ e ∈ (t.symbolsAt other).entries) := by
  by_cases hslot : other = slot
  · subst hslot
    rcases t.symbolsAt_modifySymbols_self other f with hself | ⟨hself, -⟩ <;> rw [hself] at h
    · exact .inl ⟨rfl, h⟩
    · cases h
  · rw [symbolsAt_modifySymbols_other f hslot] at h
    exact .inr ⟨hslot, h⟩

theorem Blank.of_addSymbol (h : (t.addSymbol slot s).Blank other key) :
    t.Blank other key ∨ (other = slot ∧ key = s.name ∧ s.value = none) := by
  obtain ⟨x, hx, hnone⟩ := h
  rcases mem_modifySymbols hx with ⟨rfl, hx⟩ | ⟨-, hx⟩
  · rcases NameTable.mem_entries_insert hx with hx | hx
    · cases hx
      exact .inr ⟨rfl, rfl, hnone⟩
    · exact .inl ⟨x, hx, hnone⟩
  · exact .inl ⟨x, hx, hnone⟩

theorem Blank.of_addSymbol_some (hs : s.value = some value)
    (h : (t.addSymbol slot s).Blank other key) : t.Blank other key := by
  rcases h.of_addSymbol with h | ⟨-, -, hnone⟩
  · exact h
  · rw [hs] at hnone
    cases hnone

theorem Blank.of_assign (h : (t.assign slot key value).Blank other name) :
    t.Blank other name ∧ ¬ (other = slot ∧ name = key) := by
  obtain ⟨x, hx, hnone⟩ := h
  rcases mem_modifySymbols hx with ⟨rfl, hx⟩ | ⟨hne, hx⟩
  · rcases NameTable.mem_entries_modify hx with ⟨hk, hx⟩ | ⟨-, y, -, hy⟩
    · exact ⟨⟨x, hx, hnone⟩, fun h => hk h.2⟩
    · dsimp only at hy
      rw [hy] at hnone
      cases hnone
  · exact ⟨⟨x, hx, hnone⟩, fun h => hne h.1⟩

theorem Blank.of_storeVar {pos : Position} (h : (t.storeVar slot key value pos).Blank other name) :
    t.Blank other name := by
  unfold storeVar at h
  split at h
  · exact h.of_assign.1
  · exact h.of_addSymbol_some rfl

theorem Blank.of_openScope {kind : ScopeKind} (h : (t.openScope kind).Blank slot key) : t.Blank slot key :=
  h.congr (t.symbolsAt_openScope kind slot)

theorem Blank.of_modifyTop {f : Scope → Scope} (h : (t.modifyTop f).Blank slot key)
    (hf : ∀ s, (f s).symbols = s.symbols) : t.Blank slot key := h.congr (symbolsAt_modifyTop hf slot)

theorem Blank.of_closeScope {keep : Bool} (h : (t.closeScope keep).Blank slot key) : t.Blank slot key := by
  obtain ⟨_, hclosed, rfl | ⟨id, -, rfl⟩⟩ := t.closeScope_eq keep <;> rw [hclosed] at h
  · exact h.congr (by cases slot <;> rfl)
  · obtain ⟨s, hs, hnone⟩ := h
    have hcleared : (key, s) ∈ ((t.modifySymbols (.scope id) fun _ => {}).symbolsAt slot).entries := by
      cases slot <;> exact hs
    rcases mem_modifySymbols hcleared with ⟨-, hs⟩ | ⟨-, hs⟩
    · cases hs
    · exact ⟨s, hs, hnone⟩

theorem Blank.of_modifyModule {id : Nat} {f : Module → Module}
    (h : (t.modifyModule id f).Blank slot key) (hf : ∀ m, (f m).symbols = m.symbols) : t.Blank slot key :=
  h.congr (symbolsAt_congr (t := t) (u := t.modifyModule id f) rfl (map_modify_of_eq hf) slot)

theorem Blank.of_enterModule {outer : String} (he : t.enterModule outer = .ok u)
    (h : u.Blank slot key) : t.Blank slot key := h.congr (symbolsAt_enterModule he slot)

theorem Blank.of_leaveModule (h : t.leaveModule.Blank slot key) : t.Blank slot key := by
  obtain ⟨_, hleft⟩ := t.leaveModule_eq
  rw [hleft] at h
  exact h.congr (by cases slot <;> rfl)

theorem mem_exported {e : String × Symbol} (h : e ∈ t.exported.entries) :
    ∃ id key, (key, e.2) ∈ (t.symbolsAt (.module id)).entries := by
  rw [exported_eq] at h
  rcases NameTable.mem_foldl_insert h with hm | hm
  · obtain ⟨id, -, hm⟩ := List.mem_flatMap.1 hm
    obtain ⟨⟨key, s⟩, hkey, rfl⟩ := List.mem_map.1 hm
    exact ⟨id, key, hkey⟩
  · cases hm

end SymbolTable

end SpectrumAsm
