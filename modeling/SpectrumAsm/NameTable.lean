/-
Tables from names to values that remember the order in which the names were first entered.
-/
namespace SpectrumAsm

/-- A table from names to values, oldest name first. -/
structure NameTable (α : Type) where
  entries : List (String × α) := []
  deriving Repr

namespace NameTable

variable {α : Type}

def empty : NameTable α := {}

def get? (t : NameTable α) (name : String) : Option α :=
  t.entries.lookup name

def contains (t : NameTable α) (name : String) : Bool :=
  (t.get? name).isSome

def keys (t : NameTable α) : List String :=
  t.entries.map (·.1)

def size (t : NameTable α) : Nat :=
  t.entries.length

def modify (t : NameTable α) (name : String) (f : α → α) : NameTable α :=
  ⟨t.entries.map fun entry => if entry.1 == name then (entry.1, f entry.2) else entry⟩

/-- The table with a name set to a value. A name that was entered before keeps its place. -/
def insert (t : NameTable α) (name : String) (value : α) : NameTable α :=
  if t.contains name then t.modify name fun _ => value else ⟨t.entries ++ [(name, value)]⟩

theorem lookup_map_other {name other : String} (h : other ≠ name) (f : α → α)
    (entries : List (String × α)) :
    (entries.map fun e => if e.1 == name then (e.1, f e.2) else e).lookup other =
      entries.lookup other := by
  induction entries with
  | nil => rfl
  | cons e entries ih =>
    obtain ⟨key, value⟩ := e
    by_cases hk : key = name
    · subst hk
      simp only [List.map_cons, beq_self_eq_true, if_true, List.lookup_cons]
      rw [beq_eq_false_iff_ne.2 h]
      exact ih
    · simp only [List.map_cons, beq_eq_false_iff_ne.2 hk, Bool.false_eq_true, if_false,
        List.lookup_cons, ih]

theorem lookup_map_self (name : String) (f : α → α) (entries : List (String × α)) :
    (entries.map fun e => if e.1 == name then (e.1, f e.2) else e).lookup name =
      (entries.lookup name).map f := by
  induction entries with
  | nil => rfl
  | cons e entries ih =>
    obtain ⟨key, value⟩ := e
    by_cases hk : key = name
    · subst hk
      simp
    · simp only [List.map_cons, beq_eq_false_iff_ne.2 hk, Bool.false_eq_true, if_false,
        List.lookup_cons, beq_eq_false_iff_ne.2 (Ne.symm hk), ih]

theorem lookup_append (entries more : List (String × α)) (name : String) :
    (entries ++ more).lookup name = (entries.lookup name).or (more.lookup name) := by
  induction entries with
  | nil => simp
  | cons e entries ih =>
    obtain ⟨key, value⟩ := e
    by_cases hk : name = key
    · subst hk; simp
    · simp [List.lookup_cons, beq_eq_false_iff_ne.2 hk, ih]

@[simp] theorem get?_empty (name : String) : (empty : NameTable α).get? name = none := rfl

@[simp] theorem get?_modify_self (t : NameTable α) (name : String) (f : α → α) :
    (t.modify name f).get? name = (t.get? name).map f :=
  lookup_map_self name f t.entries

theorem get?_modify_other (t : NameTable α) {name other : String} (f : α → α)
    (h : other ≠ name) : (t.modify name f).get? other = t.get? other :=
  lookup_map_other h f t.entries

@[simp] theorem get?_insert_self (t : NameTable α) (name : String) (value : α) :
    (t.insert name value).get? name = some value := by
  unfold insert contains
  cases h : t.get? name with
  | some old => simp [h]
  | none =>
    have h' : t.entries.lookup name = none := h
    simp [get?, lookup_append, h']

theorem get?_insert_other (t : NameTable α) {name other : String} (value : α)
    (h : other ≠ name) : (t.insert name value).get? other = t.get? other := by
  unfold insert
  split
  · exact get?_modify_other t _ h
  · simp [get?, lookup_append, List.lookup_cons, beq_eq_false_iff_ne.2 h]

@[simp] theorem keys_modify (t : NameTable α) (name : String) (f : α → α) :
    (t.modify name f).keys = t.keys := by
  unfold keys modify
  rw [List.map_map]
  apply List.map_congr_left
  intro e _
  by_cases h : e.1 = name <;> simp [h]

theorem keys_insert_new (t : NameTable α) {name : String} (value : α)
    (h : t.contains name = false) : (t.insert name value).keys = t.keys ++ [name] := by
  simp [insert, h, keys]

end NameTable

end SpectrumAsm
