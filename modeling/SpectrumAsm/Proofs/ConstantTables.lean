/-
Tables of constants.

A table is closed under definitions if it holds the value of every definition whose expression has one. A
table filled one by one, each value being that of its expression in the table so far, stays below every closed
table, and goes on to say of a definition what was decided on the way (`Fates`).
-/
import SpectrumAsm.Proofs.ConstantExpressions

namespace SpectrumAsm

open List

variable {k : Constants} {name : String} {ds ds' : List (String × Expr)} {o : Option Fault}
  {s : Symbol}

/-! ## Tables closed under definitions -/

namespace Constants

/-- Every definition whose expression has a value is in the table with it. -/
def Closed (ds : List (String × Expr)) (k : Constants) : Prop :=
  ∀ d ∈ ds, ∀ v, d.2.outcome k = .ok (.ready v) → k d.1 = some v

def set (k : Constants) (name : String) (v : Value) : Constants := fun other => if other = name then some v else k other

theorem set_self (k : Constants) (name : String) (v : Value) : k.set name v name = some v := if_pos rfl

theorem below_set (h : k name = none) (v : Value) : k.Below (k.set name v) := by
  intro other w hw
  unfold set
  split
  · next heq =>
    rw [heq, h] at hw
    cases hw
  · exact hw

end Constants

/-- What is reported for a constant of an expression. -/
def Expr.fault? (k : Constants) (e : Expr) : Option Fault :=
  match e.outcome k with
  | .ok (.ready _) => none
  | .ok (.pending names) => some (.waiting names)
  | .error fault => some fault

namespace Constants

/-- A definition has its value in the table, or its expression is at fault. -/
def Decides (k : Constants) (d : String × Expr) : Option Fault → Prop
  | none => ∃ v, d.2.outcome k = .ok (.ready v) ∧ k d.1 = some v
  | some fault => d.2.outcome k = .error fault

theorem Decides.below {k' : Constants} {d : String × Expr} (h : k.Decides d o)
    (hd : d.2.isConstant = true) (hk : k.Below k') : k'.Decides d o := by
  cases o with
  | none =>
    obtain ⟨v, ho, hv⟩ := h
    refine ⟨v, ?_, hk _ _ hv⟩
    rw [Expr.outcome_below hd hk (by simp [ho]), ho]
  | some fault =>
    have ho : d.2.outcome k = .error fault := h
    show d.2.outcome k' = .error fault
    rw [Expr.outcome_below hd hk (by simp [ho]), ho]

theorem Decides.fault? {d : String × Expr} (h : k.Decides d o) : d.2.fault? k = o := by
  unfold Expr.fault?
  cases o with
  | none =>
    obtain ⟨v, ho, -⟩ := h
    rw [ho]
  | some fault =>
    have ho : d.2.outcome k = .error fault := h
    rw [ho]

theorem Closed.perm (h : k.Closed ds) (hp : ds.Perm ds') : k.Closed ds' := fun d hd v hv => h d (hp.symm.subset hd) v hv

end Constants

/-- Definitions of constants with pairwise different names. -/
structure Definitions (ds : List (String × Expr)) : Prop where
  names : (ds.map Prod.fst).Nodup
  exprs : ∀ d ∈ ds, d.2.isConstant = true

theorem Definitions.perm (h : Definitions ds) (hp : ds.Perm ds') : Definitions ds' :=
  ⟨(hp.map Prod.fst).nodup_iff.1 h.names, fun d hd => h.exprs d (hp.symm.subset hd)⟩

/-- A table that was filled one by one: what is settled of the definitions is decided by it, and it
holds no value that some closed table does not. -/
structure Fates (ds : List (String × Expr)) (settled : List ((String × Expr) × Option Fault))
    (k : Constants) : Prop where
  decided : ∀ entry ∈ settled, k.Decides entry.1 entry.2
  least : ∀ k', k'.Closed ds → k.Below k'

namespace Fates

variable {ds : List (String × Expr)} {settled : List ((String × Expr) × Option Fault)}
  {d : String × Expr}

theorem value (h : Fates ds settled k) (hds : Definitions ds) (hs : ∀ entry ∈ settled, entry.1 ∈ ds)
    (hd : d ∈ ds) (hfree : k d.1 = none) {v : Value}
    (hv : d.2.outcome k = .ok (.ready v)) : Fates ds ((d, none) :: settled) (k.set d.1 v) := by
  have hbelow := Constants.below_set hfree v
  have hstays {k' : Constants} (hk : k.Below k') : d.2.outcome k' = .ok (.ready v) := by
    rw [Expr.outcome_below (hds.exprs d hd) hk (by simp [hv]), hv]
  refine ⟨fun entry hm => ?_, fun k' hk' name w hw => ?_⟩
  · rcases mem_cons.1 hm with rfl | hm
    · exact ⟨v, hstays hbelow, k.set_self d.1 v⟩
    · exact (h.decided entry hm).below (hds.exprs _ (hs entry hm)) hbelow
  · unfold Constants.set at hw
    split at hw
    · next heq =>
      cases hw
      rw [heq]
      exact hk' d hd v (hstays (h.least k' hk'))
    · exact h.least k' hk' name w hw

theorem fault (h : Fates ds settled k) {fault : Fault} (hf : d.2.outcome k = .error fault) :
    Fates ds ((d, some fault) :: settled) k := by
  refine ⟨fun entry hm => ?_, h.least⟩
  rcases mem_cons.1 hm with rfl | hm
  · exact hf
  · exact h.decided entry hm

end Fates

/-! ## Assemblies with nothing but constants -/

namespace NameTable

variable {α : Type}

theorem get?_eq_none_iff {t : NameTable α} : t.get? name = none ↔ name ∉ t.keys := by
  unfold get? keys
  rw [lookup_eq_none_iff]
  simp only [mem_map, not_exists, not_and, bne_iff_ne, ne_eq]
  exact ⟨fun h e he hn => h e he hn.symm, fun h e he hn => h e he hn.symm⟩

theorem nodup_keys_insert {t : NameTable α} (h : t.keys.Nodup) (hnew : t.get? name = none)
    (value : α) : (t.insert name value).keys.Nodup := by
  have hcontains : t.contains name = false := by
    unfold contains
    rw [hnew]
    rfl
  rw [keys_insert_new t value hcontains, nodup_append]
  refine ⟨h, by simp, fun x hx y hy => ?_⟩
  rw [mem_singleton.1 hy]
  rintro rfl
  exact get?_eq_none_iff.1 hnew hx

theorem get?_foldl_insert {entries : List (String × α)} (h : (entries.map Prod.fst).Nodup)
    (t : NameTable α) (name : String) : (entries.foldl (fun t e => t.insert e.1 e.2) t).get? name =
      (entries.lookup name).or (t.get? name) := by
  induction entries generalizing t with
  | nil => rfl
  | cons e entries ih =>
    rw [map_cons, nodup_cons] at h
    rw [foldl_cons, ih h.2, lookup_cons]
    by_cases hn : name = e.1
    · have hlast : entries.lookup name = none := by
        have hkeys : name ∉ (⟨entries⟩ : NameTable α).keys := by
          rw [hn]
          exact h.1
        exact get?_eq_none_iff.2 hkeys
      rw [hlast, hn, get?_insert_self, beq_self_eq_true]
      rfl
    · rw [get?_insert_other _ _ hn, beq_eq_false_iff_ne.2 hn]

end NameTable

namespace SymbolTable

/-- Only the outermost module is there, with nothing but symbols in it, and no scope is open. -/
structure IsFlat (t : SymbolTable) : Prop where
  modules : t.modules = #[{ name := "", parent := none, symbols := t.symbolsAt (.module 0) }]
  active : t.active = []
  current : t.current = 0

def constants (t : SymbolTable) : Constants := fun name => ((t.symbolsAt (.module 0)).get? name).bind (·.value)

variable {t : SymbolTable}

section
variable (h : t.IsFlat)
include h

theorem IsFlat.lookup (ref : SymbolRef) : t.lookup ref none 0 = (t.symbolsAt (.module 0)).get? ref.joined := by
  have hroot : t.modules[0]? = some { name := "", parent := none, symbols := t.symbolsAt (.module 0) } := by
    rw [h.modules]
    rfl
  have hresolve : t.resolveIn 0 ref.path = (t.symbolsAt (.module 0)).get? ref.joined := by
    unfold SymbolRef.joined
    cases ref.path with
    | nil =>
      unfold resolveIn
      rw [hroot]
      rfl
    | cons part rest =>
      unfold resolveIn
      rw [hroot]
      dsimp only
      cases (t.symbolsAt (.module 0)).get? (".".intercalate (part :: rest)) with
      | some s => rfl
      | none => exact ite_self _
  have hchain : t.moduleChain 0 = [0] := by
    unfold moduleChain moduleOutward
    rw [h.modules]
    rfl
  unfold SymbolTable.lookup
  split
  · exact hresolve
  · rw [hchain, findSome?_singleton, hresolve]
    rfl

theorem IsFlat.symbol (origin : UInt16) (ref : SymbolRef) :
    (t.env ⟨none, 0, origin⟩).symbol ref = t.constants ref.joined := by
  show (t.lookup ref none 0).bind (·.value) = _
  rw [h.lookup]
  rfl

theorem IsFlat.modifySymbols (f : NameTable Symbol → NameTable Symbol) : (t.modifySymbols (.module 0) f).IsFlat ∧
      (t.modifySymbols (.module 0) f).symbolsAt (.module 0) = f (t.symbolsAt (.module 0)) := by
  have hmodules : (t.modifySymbols (.module 0) f).modules =
      #[{ name := "", parent := none, symbols := f (t.symbolsAt (.module 0)) }] := by
    have hmodify : (t.modifySymbols (.module 0) f).modules =
      t.modules.modify 0 fun m => { m with symbols := f m.symbols } := rfl
    rw [hmodify, h.modules]
    rfl
  have hsymbols : (t.modifySymbols (.module 0) f).symbolsAt (.module 0) = f (t.symbolsAt (.module 0)) := by
    unfold symbolsAt
    rw [hmodules]
    rfl
  exact ⟨⟨by rw [hmodules, hsymbols], h.active, h.current⟩, hsymbols⟩

theorem IsFlat.get?_exported (hkeys : (t.symbolsAt (.module 0)).keys.Nodup) (name : String) :
    t.exported.get? name = (t.symbolsAt (.module 0)).get? name := by
  have hqualifier : t.qualifier 0 = "" := by
    unfold qualifier moduleChain moduleOutward
    rw [h.modules]
    rfl
  have hentries : t.entriesBelow t.modules.size = (t.symbolsAt (.module 0)).entries := by
    rw [h.modules]
    simp [entriesBelow, qualifiedEntries, hqualifier]
  rw [exported_eq, hentries, NameTable.get?_foldl_insert hkeys]
  exact Option.or_none

theorem IsFlat.constants_modify {key : String} {f : NameTable Symbol → NameTable Symbol}
    (hf : ∀ name, name ≠ key → (f (t.symbolsAt (.module 0))).get? name = (t.symbolsAt (.module 0)).get? name) :
    (t.modifySymbols (.module 0) f).constants = fun name =>
      if name = key then ((f (t.symbolsAt (.module 0))).get? key).bind (·.value) else t.constants name := by
  funext name
  unfold constants
  rw [(h.modifySymbols f).2]
  split
  · next hn => rw [hn]
  · next hn => rw [hf name hn]

end

end SymbolTable

end SpectrumAsm
