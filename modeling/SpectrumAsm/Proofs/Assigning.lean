/-
What an assigned value changes for references.

Giving a symbol a value neither adds nor removes names, so every reference means the symbol it meant before,
and no value is lost. Constants that wait are given a value only once: then what had a value before keeps it.
-/
import SpectrumAsm.Proofs.Lookups

namespace SpectrumAsm

/-- A reference means the same symbol as before, or that symbol with a value. -/
def SameOrValued (value : Value) (s s' : Option Symbol) : Prop :=
  s' = s ∨ ∃ x, s = some x ∧ s' = some { x with value := some value }

namespace SameOrValued

variable {value : Value} {s s' : Option Symbol}

theorem found (h : SameOrValued value s s') : (s = none ∧ s' = none) ∨ s.isSome = true ∧ s'.isSome = true := by
  rcases h with rfl | ⟨x, rfl, rfl⟩
  · cases s' with
    | none => exact .inl ⟨rfl, rfl⟩
    | some x => exact .inr ⟨rfl, rfl⟩
  · exact .inr ⟨rfl, rfl⟩

theorem isSome (h : SameOrValued value s s') (hs : (s.bind (·.value)).isSome = true) :
    (s'.bind (·.value)).isSome = true := by
  rcases h with rfl | ⟨x, rfl, rfl⟩
  · exact hs
  · rfl

end SameOrValued

/-- A reference means the same symbol as before, or that symbol with a value it did not have. -/
def Gains (s s' : Option Symbol) : Prop :=
  s' = s ∨ ∃ x v, s = some x ∧ x.value = none ∧ s' = some { x with value := some v }

namespace Gains

variable {s s' s'' : Option Symbol}

theorem found (h : Gains s s') : (s = none ∧ s' = none) ∨ s.isSome = true ∧ s'.isSome = true := by
  rcases h with rfl | ⟨x, v, rfl, -, rfl⟩
  · cases s' with
    | none => exact .inl ⟨rfl, rfl⟩
    | some x => exact .inr ⟨rfl, rfl⟩
  · exact .inr ⟨rfl, rfl⟩

theorem trans (h : Gains s s') (h' : Gains s' s'') : Gains s s'' := by
  rcases h with rfl | ⟨x, v, rfl, hx, rfl⟩
  · exact h'
  · rcases h' with rfl | ⟨_, _, hy, hvalue, -⟩
    · exact .inr ⟨x, v, rfl, hx, rfl⟩
    · cases hy
      cases hvalue

theorem value {v : Value} (h : Gains s s') (hv : s.bind (·.value) = some v) : s'.bind (·.value) = some v := by
  rcases h with rfl | ⟨x, w, rfl, hx, -⟩
  · exact hv
  · rw [Option.bind_some, hx] at hv
    cases hv

end Gains

theorem NameTable.get?_assign (t : NameTable Symbol) (key : String) (value : Value) (name : String) :
    SameOrValued value (t.get? name) ((t.modify key fun s => { s with value := some value }).get? name) := by
  by_cases h : name = key
  · subst h
    rw [NameTable.get?_modify_self]
    cases hx : t.get? name with
    | none => exact .inl rfl
    | some x => exact .inr ⟨x, rfl, rfl⟩
  · rw [NameTable.get?_modify_other _ _ h]
    exact .inl rfl

namespace SymbolTable

variable (t : SymbolTable) (slot : Slot) (key : String) (value : Value)

theorem symbolsAt_assign (other : Slot) (name : String) : SameOrValued value ((t.symbolsAt other).get? name)
      (((t.assign slot key value).symbolsAt other).get? name) := by
  unfold assign
  by_cases h : other = slot
  · subst h
    rcases t.symbolsAt_modifySymbols_self other (·.modify key fun s => { s with value := some value }) with
      hself | ⟨hself, hempty⟩
    · rw [hself]
      exact (t.symbolsAt other).get?_assign key value name
    · rw [hself, hempty]
      exact .inl rfl
  · rw [symbolsAt_modifySymbols_other _ h]
    exact .inl rfl

theorem symbolsAt_assign_other {other : Slot} {name : String} (h : (other, name) ≠ (slot, key)) :
    ((t.assign slot key value).symbolsAt other).get? name = (t.symbolsAt other).get? name := by
  unfold assign
  by_cases hslot : other = slot
  · subst hslot
    have hname : name ≠ key := fun he => h (by rw [he])
    rcases t.symbolsAt_modifySymbols_self other (·.modify key fun s => { s with value := some value }) with
      hself | ⟨hself, hempty⟩
    · rw [hself, NameTable.get?_modify_other _ _ hname]
    · rw [hself, hempty]
  · rw [symbolsAt_modifySymbols_other _ hslot]

theorem lookup_assign (ref : SymbolRef) (scope : Option Nat) (module : Nat) :
    SameOrValued value (t.lookup ref scope module) ((t.assign slot key value).lookup ref scope module) :=
  lookup_related (fun _ _ h => h.found) (.inl rfl) (t.symbolsAt_assign slot key value)
    (t.sameFrames_modifySymbols slot _).modules (t.sameFrames_modifySymbols slot _).frames ref scope module

theorem symbol_isSome_assign (place : Place) {ref : SymbolRef} (h : ((t.env place).symbol ref).isSome = true) :
    (((t.assign slot key value).env place).symbol ref).isSome = true :=
  (t.lookup_assign slot key value ref place.scope place.module).isSome h

end SymbolTable

end SpectrumAsm
