/-
The names a program exports, and what they mean when they are asked for.

A symbol is exported under the names of the modules around it and its own, with dots in between, and a rooted
reference is taken apart at its dots. The two agree but for two cases: several symbols with one qualified name,
and modules whose own name has a dot.
-/
import Mathlib.Data.List.Nodup
import Mathlib.Data.List.Pairwise
import SpectrumAsm.Proofs.ModuleNames
import SpectrumAsm.Proofs.Termination

namespace SpectrumAsm

open List Text NameTable

variable {name part : String} {id : Nat} {s : Symbol}

namespace SymbolTable

variable {t : SymbolTable}

/-- Module `id` has a symbol under a qualified name. -/
def Owns (t : SymbolTable) (id : Nat) (qualified : String) (s : Symbol) : Prop :=
  ∃ key, (t.symbolsAt (.module id)).get? key = some s ∧ t.qualifier id ++ key = qualified

theorem Owns.unique {s' : Symbol} (h : t.Owns id name s) (h' : t.Owns id name s') : s = s' := by
  obtain ⟨key, hs, hq⟩ := h
  obtain ⟨key', hs', hq'⟩ := h'
  have hkey : key = key' := (String.append_right_inj _).1 (hq.trans hq'.symm)
  rw [hkey, hs'] at hs
  exact (Option.some.inj hs).symm

theorem lt_of_get? {key : String} (h : (t.symbolsAt (.module id)).get? key = some s) : id < t.modules.size := by
  by_contra hid
  have hnone : t.symbolsAt (.module id) = {} := by
    simp [symbolsAt, Array.getElem?_eq_none (Nat.not_lt.1 hid)]
  rw [hnone] at h
  cases h

theorem Owns.lt_size (h : t.Owns id name s) : id < t.modules.size := by
  obtain ⟨key, hget, -⟩ := h
  exact lt_of_get? hget

/-- Neither a module nor one around it has a dot in its name. -/
def Plain (t : SymbolTable) (id : Nat) : Prop := ∀ j ∈ t.moduleChain id, ∀ m, t.modules[j]? = some m → Undotted m.name

theorem WellNamed.plain_root (h : t.WellNamed) : t.Plain 0 := by
  obtain ⟨root, hroot, -, hn⟩ := h.root
  intro j hj m hm
  rw [h.moduleChain_root, mem_singleton] at hj
  rw [hj, hroot] at hm
  cases hm
  rw [hn]
  decide

theorem WellNamed.plain_inner (h : t.WellNamed) {p : Nat} {m : Module}
    (hm : t.modules[id]? = some m) (hp : m.parent = some p) : t.Plain id ↔ Undotted m.name ∧ t.Plain p := by
  unfold Plain
  rw [h.moduleChain_inner hm hp, forall_mem_cons]
  refine and_congr_left fun _ => ⟨fun hall => hall m hm, fun hall m' hm' => ?_⟩
  rw [hm] at hm'
  cases hm'
  exact hall

/-! ## Following a name -/

def child? (t : SymbolTable) (id : Nat) (name : String) : Option Nat :=
  t.modules[id]?.bind fun m => m.children.get? name

/-- From module `id` a dotted name may lead to the name `key` in module `target`. -/
inductive Leads (t : SymbolTable) : Nat → String → Nat → String → Prop where
  | here (id : Nat) (key : String) : Leads t id key id key
  | into {id child target : Nat} {part rest key : String} (hpart : Undotted part)
    (hchild : t.child? id part = some child) (h : Leads t child rest target key) :
    Leads t id (part ++ "." ++ rest) target key

theorem WellNamed.child (h : t.WellNamed) {child : Nat} (hc : t.child? id name = some child) :
    ∃ m, t.modules[child]? = some m ∧ m.parent = some id ∧ m.name = name := by
  obtain ⟨outer, houter, hget⟩ := Option.bind_eq_some_iff.1 hc
  exact h.children houter hget

theorem WellNamed.lt_child (h : t.WellNamed) {child : Nat} (hc : t.child? id name = some child) : id < child := by
  obtain ⟨m, hm, hp, -⟩ := h.child hc
  exact h.parent_lt (by rw [hm, Option.bind_some, hp])

namespace Leads

variable {target : Nat} {key : String}

section
variable (h : t.WellNamed) (hl : t.Leads id name target key)
include h hl

theorem le : id ≤ target := by
  induction hl with
  | here => exact Nat.le_refl _
  | into _ hc _ ih => exact Nat.le_trans (Nat.le_of_lt (h.lt_child hc)) ih

theorem qualifier : t.qualifier id ++ name = t.qualifier target ++ key := by
  induction hl with
  | here => rfl
  | into _ hc _ ih =>
    obtain ⟨m, hm, hp, rfl⟩ := h.child hc
    rw [← ih, h.qualifier_inner hm hp]
    simp [String.append_assoc]

theorem plain (hid : t.Plain id) : t.Plain target := by
  induction hl with
  | here => exact hid
  | into hpart hc _ ih =>
    obtain ⟨m, hm, hp, rfl⟩ := h.child hc
    exact ih ((h.plain_inner hm hp).2 ⟨hpart, hid⟩)

end

theorem inner {child : Nat} {rest : String} (hl : t.Leads id name target (part ++ "." ++ rest))
    (hpart : Undotted part) (hc : t.child? target part = some child) : t.Leads id name child rest := by
  generalize hkey : part ++ "." ++ rest = key at hl
  induction hl with
  | here id key =>
    rw [← hkey]
    exact .into hpart hc (.here child rest)
  | into hpart' hc' _ ih => exact .into hpart' hc' (ih hc hkey)

end Leads

theorem WellNamed.leads_iff (h : t.WellNamed) {key : String} (hid : id < t.modules.size) :
    t.Leads 0 name id key ↔ t.Plain id ∧ t.qualifier id ++ key = name := by
  constructor
  · intro hl
    refine ⟨hl.plain h h.plain_root, ?_⟩
    rw [← hl.qualifier h, h.qualifier_root, String.empty_append]
  · rintro ⟨hplain, rfl⟩
    induction id using Nat.strongRecOn generalizing key with
    | ind id ih =>
      by_cases hzero : id = 0
      · rw [hzero, h.qualifier_root, String.empty_append]
        exact .here 0 key
      · obtain ⟨m, hm⟩ : ∃ m, t.modules[id]? = some m := ⟨_, Array.getElem?_eq_getElem hid⟩
        obtain ⟨p, outer, hp, hlt, houter, hget⟩ := h.inner hm hzero
        rw [h.plain_inner hm hp] at hplain
        have hl : t.Leads 0 (t.qualifier p ++ (m.name ++ "." ++ key)) p (m.name ++ "." ++ key) :=
          ih p hlt (Nat.lt_trans hlt hid) hplain.2
        have hchild : t.child? p m.name = some id := Option.bind_eq_some_iff.2 ⟨outer, houter, hget⟩
        have hname : t.qualifier p ++ (m.name ++ "." ++ key) = t.qualifier id ++ key := by
          simp [h.qualifier_inner hm hp, String.append_assoc]
        rw [← hname]
        exact hl.inner hplain.1 hchild

/-! ## Rooted references -/

theorem resolveIn_undotted (t : SymbolTable) (id : Nat) (h : Undotted name) :
    t.resolveIn id (dottedParts name) = (t.symbolsAt (.module id)).get? name := by
  rw [dottedParts_undotted h, resolveIn]
  cases hm : t.modules[id]? with
  | none => simp [symbolsAt, hm]; rfl
  | some m =>
    dsimp only
    rw [String.intercalate_singleton, WellNamed.symbolsAt_module hm]
    cases m.symbols.get? name <;> rfl

theorem resolveIn_split (t : SymbolTable) (id : Nat) (h : Undotted part) (rest : String) :
    t.resolveIn id (dottedParts (part ++ "." ++ rest)) = ((t.symbolsAt (.module id)).get? (part ++ "." ++ rest)).or
        ((t.child? id part).bind fun child => t.resolveIn child (dottedParts rest)) := by
  have hjoin := intercalate_dottedParts (part ++ "." ++ rest)
  have hrest : (dottedParts rest).isEmpty = false := by
    rw [isEmpty_eq_false_iff]
    exact dottedParts_ne_nil rest
  rw [dottedParts_append h] at hjoin
  rw [dottedParts_append h, resolveIn, hjoin, hrest]
  unfold child?
  cases hm : t.modules[id]? with
  | none => simp [symbolsAt, hm]; rfl
  | some m =>
    dsimp only
    rw [WellNamed.symbolsAt_module hm]
    cases m.symbols.get? (part ++ "." ++ rest) <;> rfl

/-- From module `id` a dotted name may lead to a symbol of module `target`. -/
def Reaches (t : SymbolTable) (id : Nat) (name : String) (target : Nat) (s : Symbol) : Prop :=
  ∃ key, t.Leads id name target key ∧ (t.symbolsAt (.module target)).get? key = some s

variable {target : Nat}

theorem reaches_undotted (hn : Undotted name) :
    t.Reaches id name target s ↔ target = id ∧ (t.symbolsAt (.module id)).get? name = some s := by
  constructor
  · rintro ⟨key, hl, hget⟩
    cases hl with
    | here => exact ⟨rfl, hget⟩
    | into => exact absurd (by simp) hn
  · rintro ⟨rfl, hget⟩
    exact ⟨name, .here _ name, hget⟩

theorem reaches_split {rest : String} (hpart : Undotted part) : t.Reaches id (part ++ "." ++ rest) target s ↔
    target = id ∧ (t.symbolsAt (.module id)).get? (part ++ "." ++ rest) = some s ∨
      ∃ child, t.child? id part = some child ∧ t.Reaches child rest target s := by
  constructor
  · rintro ⟨key, hl, hget⟩
    generalize hname : part ++ "." ++ rest = name at hl ⊢
    cases hl with
    | here => exact .inl ⟨rfl, hget⟩
    | @into _ child _ part' rest' _ hpart' hc hrest =>
      have hparts := congrArg dottedParts hname
      rw [dottedParts_append hpart, dottedParts_append hpart', cons.injEq] at hparts
      obtain ⟨rfl, hsame⟩ := hparts
      have heq : rest = rest' := by
        rw [← intercalate_dottedParts rest, hsame, intercalate_dottedParts]
      exact .inr ⟨child, hc, key, heq ▸ hrest, hget⟩
  · rintro (⟨rfl, hget⟩ | ⟨child, hc, key, hl, hget⟩)
    · exact ⟨_, .here .., hget⟩
    · exact ⟨key, .into hpart hc hl, hget⟩

/-- Following a name finds the outermost of the symbols it may lead to. -/
theorem WellNamed.resolveIn_reaches (h : t.WellNamed) (name : String) (id : Nat) :
    (∀ s, t.resolveIn id (dottedParts name) = some s →
      ∃ target, t.Reaches id name target s ∧ ∀ other s', t.Reaches id name other s' → target ≤ other) ∧
    (t.resolveIn id (dottedParts name) = none → ∀ target s, ¬t.Reaches id name target s) := by
  induction name using dotted_induction generalizing id with
  | undotted name hn =>
    simp only [t.resolveIn_undotted id hn, reaches_undotted hn]
    exact ⟨fun s hs => ⟨id, ⟨rfl, hs⟩, fun _ _ h => Nat.le_of_eq h.1.symm⟩, fun hs target s h => by simp [hs] at h⟩
  | split part rest hpart ih =>
    rw [t.resolveIn_split id hpart]
    cases hs : (t.symbolsAt (.module id)).get? (part ++ "." ++ rest) with
    | some s =>
      -- a symbol of the module itself is the outermost there can be
      rw [Option.some_or]
      refine ⟨fun s' heq => ⟨id, ⟨_, .here .., hs.trans heq⟩, fun _ _ h' => ?_⟩,
        fun heq => absurd heq (Option.some_ne_none s)⟩
      obtain ⟨_, hl, -⟩ := h'
      exact hl.le h
    | none =>
      simp only [reaches_split hpart, hs, Option.none_or]
      cases t.child? id part with
      | none => simp
      | some child => simpa using ih child

/-- The symbol of a name in the outermost of the plain modules that have one. -/
def FirstOwner (t : SymbolTable) (id : Nat) (name : String) (s : Symbol) : Prop :=
  t.Plain id ∧ t.Owns id name s ∧ ∀ j s', t.Plain j → t.Owns j name s' → id ≤ j

/-- The symbol of a name in the last of the modules that have one. -/
def LastOwner (t : SymbolTable) (id : Nat) (name : String) (s : Symbol) : Prop :=
  t.Owns id name s ∧ ∀ j s', t.Owns j name s' → j ≤ id

theorem lookup_of_root (t : SymbolTable) (path : List String) (scope : Option Nat) (module : Nat) :
    t.lookup ⟨path, true⟩ scope module = t.resolveIn 0 path := rfl

theorem WellNamed.lookup_rooted (h : t.WellNamed) (name : String) (scope : Option Nat) (module : Nat) (s : Symbol) :
    t.lookup (.parse ("::" ++ name)) scope module = some s ↔ ∃ id, t.FirstOwner id (upcase name) s := by
  have howns (id : Nat) (s : Symbol) : t.Reaches 0 (upcase name) id s ↔ t.Plain id ∧ t.Owns id (upcase name) s := by
    constructor
    · rintro ⟨key, hl, hget⟩
      obtain ⟨hplain, hq⟩ := (h.leads_iff (lt_of_get? hget)).1 hl
      exact ⟨hplain, key, hget, hq⟩
    · rintro ⟨hplain, key, hget, hq⟩
      exact ⟨key, (h.leads_iff (lt_of_get? hget)).2 ⟨hplain, hq⟩, hget⟩
  have hfound := h.resolveIn_reaches (upcase name) 0
  simp only [howns, and_imp, not_and] at hfound
  rw [parse_rooted, lookup_of_root]
  cases hs' : t.resolveIn 0 (dottedParts (upcase name)) with
  | some s' =>
    obtain ⟨id, hid, hleast⟩ := hfound.1 s' hs'
    constructor
    · intro heq
      cases heq
      exact ⟨id, hid.1, hid.2, hleast⟩
    · rintro ⟨j, hplain, ho, hj⟩
      have hsame : j = id := Nat.le_antisymm (hj id s' hid.1 hid.2) (hleast j s hplain ho)
      subst hsame
      rw [hid.2.unique ho]
  | none =>
    constructor
    · intro heq
      cases heq
    · rintro ⟨id, hplain, ho, -⟩
      exact absurd ho (hfound.2 hs' id s hplain)

/-! ## Exported names -/

end SymbolTable

namespace NameTable

variable {α : Type}

theorem contains_iff {t : NameTable α} : t.contains name = true ↔ name ∈ t.keys := by
  unfold contains
  rw [Option.isSome_iff_ne_none, ne_eq, get?_eq_none_iff, not_not]

theorem size_insert (t : NameTable α) (name : String) (value : α) :
    (t.insert name value).size = if t.contains name then t.size else t.size + 1 := by
  unfold insert size modify
  split
  · rw [length_map]
  · rw [length_append, length_singleton]

theorem size_foldl_insert (entries : List (String × α)) (t : NameTable α) :
    (entries.foldl (fun t e => t.insert e.1 e.2) t).size ≤ t.size + entries.length ∧
      ((entries.foldl (fun t e => t.insert e.1 e.2) t).size = t.size + entries.length ↔
        (entries.map Prod.fst).Nodup ∧ ∀ e ∈ entries, e.1 ∉ t.keys) := by
  induction entries generalizing t with
  | nil => exact ⟨Nat.le_refl _, by simp⟩
  | cons e entries ih =>
    obtain ⟨hle, heq⟩ := ih (t.insert e.1 e.2)
    rw [size_insert] at hle heq
    rw [foldl_cons, length_cons, map_cons, nodup_cons, forall_mem_cons]
    by_cases he : t.contains e.1 = true
    · rw [if_pos he] at hle
      exact ⟨by omega, fun h => by omega, fun h => absurd (contains_iff.1 he) h.2.1⟩
    · rw [if_neg he] at hle heq
      have hkeys : (t.insert e.1 e.2).keys = t.keys ++ [e.1] := keys_insert_new t e.2 (Bool.eq_false_iff.2 he)
      have hnew : e.1 ∉ t.keys := fun h => he (contains_iff.2 h)
      have hsum : t.size + (entries.length + 1) = t.size + 1 + entries.length := by omega
      rw [hsum, heq, hkeys]
      refine ⟨hle, fun h => ⟨⟨fun hm => ?_, h.1⟩, hnew, fun e' he' => ?_⟩, fun h => ⟨h.1.2, fun e' he' => ?_⟩⟩
      · obtain ⟨e', he', hname⟩ := mem_map.1 hm
        exact h.2 e' he' (hname ▸ mem_append_right _ mem_cons_self)
      · exact fun hm => h.2 e' he' (mem_append_left _ hm)
      · rw [mem_append, mem_singleton, not_or]
        refine ⟨h.2.2 e' he', fun hname => h.1.1 ?_⟩
        rw [← hname]
        exact mem_map_of_mem he'

end NameTable

namespace SymbolTable

variable {t : SymbolTable}

def symbolCount (t : SymbolTable) : Nat :=
  ((range t.modules.size).map fun id => (t.symbolsAt (.module id)).size).sum

theorem WellNamed.capitalAt (h : t.WellNamed) (id : Nat) : (t.symbolsAt (.module id)).Capital := by
  cases hm : t.modules[id]? with
  | some m =>
    rw [WellNamed.symbolsAt_module hm]
    exact (h.capital hm).2
  | none =>
    simp only [symbolsAt, hm]
    exact ⟨nodup_nil, fun key hkey => absurd hkey not_mem_nil⟩

theorem keys_qualifiedEntries (t : SymbolTable) (id : Nat) :
    (t.qualifiedEntries id).map Prod.fst = (t.symbolsAt (.module id)).keys.map (t.qualifier id ++ ·) := by
  unfold qualifiedEntries NameTable.keys
  rw [map_map, map_map]
  rfl

theorem WellNamed.nodup_qualifiedEntries (h : t.WellNamed) (id : Nat) :
    ((t.qualifiedEntries id).map Prod.fst).Nodup := by
  rw [keys_qualifiedEntries]
  exact (h.capitalAt id).1.map fun key key' heq => (String.append_right_inj _).1 heq

theorem lookup_qualifiedEntries (t : SymbolTable) (id : Nat) (name : String) (s : Symbol) :
    (t.qualifiedEntries id).lookup name = some s ↔ t.Owns id name s := by
  unfold qualifiedEntries Owns get?
  generalize t.qualifier id = q
  induction (t.symbolsAt (.module id)).entries with
  | nil => simp
  | cons e entries ih =>
    rw [map_cons, lookup_cons]
    by_cases hn : name = q ++ e.1
    · rw [hn, beq_self_eq_true]
      constructor
      · intro hs
        exact ⟨e.1, by rw [lookup_cons, beq_self_eq_true]; exact hs, rfl⟩
      · rintro ⟨key, hs, hq⟩
        rw [(String.append_right_inj q).1 hq, lookup_cons, beq_self_eq_true] at hs
        exact hs
    · rw [beq_eq_false_iff_ne.2 hn]
      refine ih.trans (exists_congr fun key => and_congr_left fun hq => ?_)
      have hkey : key ≠ e.1 := by
        rintro rfl
        exact hn hq.symm
      rw [lookup_cons, beq_eq_false_iff_ne.2 hkey]

/-- Of the symbols with one qualified name that of the last module is exported. -/
theorem WellNamed.get?_exported (h : t.WellNamed) (name : String) (s : Symbol) :
    t.exported.get? name = some s ↔ ∃ id, t.LastOwner id name s := by
  have hupto (n : Nat) (s : Symbol) :
      ((t.entriesBelow n).foldl (fun out e => out.insert e.1 e.2) ({} : NameTable Symbol)).get? name = some s ↔
        ∃ id < n, t.Owns id name s ∧ ∀ j < n, ∀ s', t.Owns j name s' → j ≤ id := by
    induction n generalizing s with
    | zero => exact ⟨fun h => (nomatch h), fun ⟨_, h, _⟩ => absurd h (Nat.not_lt_zero _)⟩
    | succ n ih =>
      have hsplit : t.entriesBelow (n + 1) = t.entriesBelow n ++ t.qualifiedEntries n := by
        unfold entriesBelow
        rw [range_succ, flatMap_append, flatMap_singleton]
      rw [hsplit, foldl_append, get?_foldl_insert (h.nodup_qualifiedEntries n)]
      cases hn : (t.qualifiedEntries n).lookup name with
      | some s' =>
        rw [lookup_qualifiedEntries] at hn
        rw [Option.some_or, Option.some.injEq]
        constructor
        · rintro rfl
          exact ⟨n, Nat.lt_succ_self n, hn, fun j hj _ _ => Nat.le_of_lt_succ hj⟩
        · rintro ⟨id, hid, ho, hlast⟩
          have hsame : id = n := Nat.le_antisymm (Nat.le_of_lt_succ hid) (hlast n (Nat.lt_succ_self n) s' hn)
          rw [hsame] at ho
          exact hn.unique ho
      | none =>
        have hnot (s' : Symbol) : ¬ t.Owns n name s' := by
          rw [← lookup_qualifiedEntries, hn]
          exact nofun
        have hlt {j : Nat} {s' : Symbol} (hj : j < n + 1) (ho : t.Owns j name s') : j < n :=
          Nat.lt_of_le_of_ne (Nat.le_of_lt_succ hj) fun heq => hnot s' (heq ▸ ho)
        rw [Option.none_or, ih]
        constructor
        · rintro ⟨id, hid, ho, hlast⟩
          exact ⟨id, Nat.lt_succ_of_lt hid, ho, fun j hj s' ho' => hlast j (hlt hj ho') s' ho'⟩
        · rintro ⟨id, hid, ho, hlast⟩
          exact ⟨id, hlt hid ho, ho, fun j hj s' ho' => hlast j (Nat.lt_succ_of_lt hj) s' ho'⟩
  rw [exported_eq, hupto]
  constructor
  · rintro ⟨id, -, ho, hlast⟩
    exact ⟨id, ho, fun j s' ho' => hlast j ho'.lt_size s' ho'⟩
  · rintro ⟨id, ho, hlast⟩
    exact ⟨id, ho.lt_size, ho, fun j _ s' ho' => hlast j s' ho'⟩

/-- All symbols are exported just if no two modules have one of the same qualified name. -/
theorem WellNamed.size_exported (h : t.WellNamed) : t.exported.size ≤ t.symbolCount ∧ (t.exported.size = t.symbolCount ↔
      ∀ name i j s s', t.Owns i name s → t.Owns j name s' → i = j) := by
  have hcount : (t.entriesBelow t.modules.size).length = t.symbolCount := by
    unfold entriesBelow symbolCount qualifiedEntries size
    simp
  have hmem {name : String} {i : Nat} :
      name ∈ (t.qualifiedEntries i).map Prod.fst ↔ ∃ s, t.Owns i name s := by
    have hnone : (t.qualifiedEntries i).lookup name = none ↔ name ∉ (t.qualifiedEntries i).map Prod.fst :=
      get?_eq_none_iff (t := ⟨t.qualifiedEntries i⟩)
    rw [← not_iff_not, ← hnone, Option.eq_none_iff_forall_ne_some, not_exists]
    exact forall_congr' fun s => not_congr (lookup_qualifiedEntries t i name s)
  have hnodup : ((t.entriesBelow t.modules.size).map Prod.fst).Nodup ↔
      ∀ name i j s s', t.Owns i name s → t.Owns j name s' → i = j := by
    unfold entriesBelow
    rw [map_flatMap, nodup_flatMap]
    constructor
    · rintro ⟨-, hpair⟩ name i j s s' ho ho'
      by_contra hne
      have hsymm : Std.Symm (Function.onFun List.Disjoint fun i => (t.qualifiedEntries i).map Prod.fst) :=
        ⟨fun _ _ hd name hi hj => hd hj hi⟩
      have hdisjoint := hpair.forall (mem_range.2 ho.lt_size) (mem_range.2 ho'.lt_size) hne
      exact hdisjoint (hmem.2 ⟨s, ho⟩) (hmem.2 ⟨s', ho'⟩)
    · intro hone
      refine ⟨fun i _ => h.nodup_qualifiedEntries i, ?_⟩
      refine nodup_range.pairwise_of_forall_ne fun i _ j _ hne => ?_
      intro name hi hj
      obtain ⟨s, ho⟩ := hmem.1 hi
      obtain ⟨s', ho'⟩ := hmem.1 hj
      exact hne (hone name i j s s' ho ho')
  obtain ⟨hle, heq⟩ := size_foldl_insert (t.entriesBelow t.modules.size) ({} : NameTable Symbol)
  have hempty : ({} : NameTable Symbol).size = 0 := rfl
  rw [← exported_eq, hempty, Nat.zero_add, hcount] at hle heq
  rw [hnodup] at heq
  exact ⟨hle, heq.trans ⟨fun h => h.1, fun h => ⟨h, fun e _ => not_mem_nil⟩⟩⟩

theorem WellNamed.upcase_qualifier (h : t.WellNamed) (id : Nat) (hid : id < t.modules.size) :
    upcase (t.qualifier id) = t.qualifier id := by
  induction id using Nat.strongRecOn with
  | ind id ih =>
    by_cases hzero : id = 0
    · rw [hzero, h.qualifier_root]
      rfl
    · obtain ⟨m, hm⟩ : ∃ m, t.modules[id]? = some m := ⟨_, Array.getElem?_eq_getElem hid⟩
      obtain ⟨p, -, hp, hlt, -, -⟩ := h.inner hm hzero
      have hdot : upcase "." = "." := by decide
      rw [h.qualifier_inner hm hp, upcase_append, upcase_append, ih p hlt (Nat.lt_trans hlt hid),
        (h.capital hm).1, hdot]

theorem WellNamed.upcase_owned (h : t.WellNamed) (ho : t.Owns id name s) : upcase name = name := by
  have hid := ho.lt_size
  obtain ⟨key, hget, rfl⟩ := ho
  have hkey : key ∈ (t.symbolsAt (.module id)).keys := by
    rw [← NameTable.contains_iff]
    unfold NameTable.contains
    rw [hget]
    rfl
  rw [upcase_append, h.upcase_qualifier id hid, (h.capitalAt id).2 key hkey]

end SymbolTable

/-- The symbol tables of a program: those with which its walk comes to a line, and the last one. -/
inductive TableOf (setup : Setup) (lines : List SourceLine) : SymbolTable → Prop where
  | atLine {t : Tally} {b : Assembly} {visit : SourceLine × Assembly}
    (h : Walks (.lines lines) (.new setup) t b) (hv : visit ∈ t.visits) : TableOf setup lines visit.2.symbols
  | last : TableOf setup lines ((assembleLines lines).run (.new setup)).2.symbols

theorem TableOf.wellNamed {setup : Setup} {lines : List SourceLine} {t : SymbolTable} (h : TableOf setup lines t) :
    t.WellNamed := by
  have hstart : (Assembly.new setup).symbols.WellNamed := .new _
  have hpreorder : IsPreorder SymbolTable fun t u => t.WellNamed → u.WellNamed :=
    { refl := fun _ h => h, trans := fun _ _ _ h h' ht => h' (h ht) }
  have hkeep := SymbolTable.WellNamed.bookkeeping
  cases h with
  | atLine h hv => exact (h.keeps hkeep.call).2 _ hv hstart
  | last =>
    obtain ⟨u, hu⟩ := walkProgram_walks setup lines
    have hwalked := (hu.keeps hkeep.call).1 hstart
    exact hkeep.settling.resolveAll hkeep.note _ (hkeep.upkeep.housekeeping.flushLabel _ hwalked)

/-- Exported names and rooted references. In every symbol table of a program all symbols are exported just if no
two modules have one of the same qualified name. Of several such the last is exported, and a rooted reference is to
the first that no module name with a dot hides. -/
theorem exported_names_found {setup : Setup} {lines : List SourceLine} {t : SymbolTable} (h : TableOf setup lines t) :
    (t.exported.size ≤ t.symbolCount ∧ (t.exported.size = t.symbolCount ↔
      ∀ name i j s s', t.Owns i name s → t.Owns j name s' → i = j)) ∧
    (∀ name s, t.exported.get? name = some s ↔ ∃ id, t.LastOwner id name s) ∧
    (∀ name s scope module, t.lookup (.parse ("::" ++ name)) scope module = some s ↔
      ∃ id, t.FirstOwner id (upcase name) s) ∧
    (t.exported.size = t.symbolCount → ∀ name s, t.exported.get? name = some s →
      ∀ id, t.Owns id name s → ∀ scope module,
        (t.lookup (.parse ("::" ++ name)) scope module = some s ↔ t.Plain id)) := by
  have hnamed := h.wellNamed
  refine ⟨hnamed.size_exported, ?_, ?_, ?_⟩
  · exact hnamed.get?_exported
  · intro name s scope module
    exact hnamed.lookup_rooted name scope module s
  intro hall name s hs id ho scope module
  have hone := hnamed.size_exported.2.1 hall
  rw [hnamed.lookup_rooted, hnamed.upcase_owned ho]
  constructor
  · rintro ⟨j, hplain, ho', -⟩
    rwa [hone name id j s s ho ho']
  · intro hplain
    exact ⟨id, hplain, ho, fun j s' _ ho' => Nat.le_of_eq (hone name id j s s' ho ho')⟩

/-- A module `A.B` with a label `X`. -/
def dottedModule : List SourceLine := [⟨⟨0, 0⟩, none, some (.statement (.moduleDef (some "A.B"))), none⟩,
    ⟨⟨0, 1⟩, some "X", some (.op .nop []), none⟩,
    ⟨⟨0, 2⟩, none, some (.statement .endModule), none⟩]

/-- The label is exported as `A.B.X`, and no rooted reference finds it under this name. -/
theorem exported_names_found_dotted :
    let t := ((assembleLines dottedModule).run (.new {})).2.symbols
    t.exported.get? "A.B.X" = some ⟨"X", .label, some (.int 0x8000), ⟨0, 1⟩⟩ ∧
      ∀ scope module, t.lookup (.parse ("::" ++ "A.B.X")) scope module ≠
        some ⟨"X", .label, some (.int 0x8000), ⟨0, 1⟩⟩ := by
  -- The table is given a name, so that nothing but the kernel computes it.
  obtain ⟨t, ht⟩ : ∃ x, x = ((assembleLines dottedModule).run (.new {})).2.symbols := ⟨_, rfl⟩
  have hexported : t.exported.get? "A.B.X" = some ⟨"X", .label, some (.int 0x8000), ⟨0, 1⟩⟩ := by
    rewrite [ht]
    decide +kernel
  have howns : t.Owns 1 "A.B.X" ⟨"X", .label, some (.int 0x8000), ⟨0, 1⟩⟩ := by
    refine ⟨"X", ?_, ?_⟩ <;> rewrite [ht] <;> decide +kernel
  have hsize : t.exported.size = t.symbolCount := by
    rewrite [ht]
    decide +kernel
  have hname : ∃ m, t.modules[1]? = some m ∧ ¬ Undotted m.name := by
    have hdot : (t.modules[1]?.map fun m => decide (Undotted m.name)) = some false := by
      rewrite [ht]
      decide +kernel
    obtain ⟨m, hm, hdotted⟩ := Option.map_eq_some_iff.1 hdot
    exact ⟨m, hm, of_decide_eq_false hdotted⟩
  obtain ⟨m, hm, hdotted⟩ := hname
  have htable : TableOf {} dottedModule t := by
    rewrite [ht]
    exact .last
  obtain ⟨-, -, -, hfound⟩ := exported_names_found htable
  rewrite [← ht]
  refine ⟨hexported, fun scope module hlookup => hdotted ?_⟩
  exact (hfound hsize "A.B.X" _ hexported 1 howns scope module).1 hlookup 1 mem_cons_self m hm

end SpectrumAsm
