/-
What becomes of the definitions of a program of constants.

At every moment each definition is settled as the table of values says, waits, or is still to come (`Ledger`).
When all that is left has to wait, the table is the least one closed under the definitions, and what is
reported can be read off it.
-/
import SpectrumAsm.Proofs.ConstantTables
import SpectrumAsm.Proofs.Resolver

namespace SpectrumAsm

open List Text SymbolTable Step Assembly Prod NameTable

variable {p : Patch} {e : Expr} {s : Symbol} {fault : Fault} {v : Value} {label : String}

/-! ## The state of a program of constants -/

def Patch.definition (p : Patch) : String × Expr := ((p.target.map (·.2)).getD "", p.expr)

/-- A patch for a constant of the outermost module that was entered without a value. -/
structure Patch.IsEqu (p : Patch) (t : SymbolTable) : Prop where
  kind : p.kind = .equ
  target : p.target = some (.module 0, p.definition.1)
  scope : p.scope = none
  module : p.module = 0
  entered : ∃ s, (t.symbolsAt (.module 0)).get? p.definition.1 = some s ∧ s.value = none

theorem Patch.IsEqu.place {t : SymbolTable} (h : p.IsEqu t) : p.place = ⟨none, 0, p.origin⟩ := by
  unfold Patch.place
  rw [h.scope, h.module]

/-- The state of a program of constants: definitions in `settled` have a value or were reported, those of the
queue wait, and those in `rest` are still to come. -/
structure Ledger (ds rest : List (String × Expr))
    (settled : List ((String × Expr) × Option Fault)) (a : Assembly) : Prop where
  definitions : Definitions ds
  flat : a.symbols.IsFlat
  keys : (a.symbols.symbolsAt (.module 0)).keys.Nodup
  once : (settled.map fst ++ (a.pending.toList.map Patch.definition ++ rest)).Perm ds
  queued : ∀ p ∈ a.pending, p.IsEqu a.symbols
  free : ∀ d ∈ rest, (a.symbols.symbolsAt (.module 0)).get? d.1 = none
  fates : Fates ds settled a.symbols.constants
  faults : (a.diagnostics.toList.map (·.fault)).Perm (settled.filterMap snd)
  hanging : a.hanging = none

namespace Ledger

variable {ds rest : List (String × Expr)} {settled : List ((String × Expr) × Option Fault)}
  {a b : Assembly}

theorem new (hds : Definitions ds) (setup : Setup) : Ledger ds ds [] (.new setup) where
  definitions := hds
  flat := ⟨rfl, rfl, rfl⟩
  keys := nodup_nil
  once := .refl ds
  queued := fun _ hp => absurd hp (Array.not_mem_empty _)
  free := fun _ _ => rfl
  fates := ⟨fun _ hm => absurd hm not_mem_nil, fun _ _ _ _ hv => (nomatch hv)⟩
  faults := .refl []
  hanging := rfl

section
variable (h : Ledger ds rest settled a)
include h

theorem same (hs : ∃ used, b.symbols = { a.symbols with used }) (hp : b.pending = a.pending)
    (hd : b.diagnostics = a.diagnostics) (hh : b.hanging = a.hanging) : Ledger ds rest settled b := by
  obtain ⟨used, hu⟩ := hs
  have hat : b.symbols.symbolsAt (.module 0) = a.symbols.symbolsAt (.module 0) := by rw [hu]; rfl
  have hconstants : b.symbols.constants = a.symbols.constants := by
    unfold constants
    rw [hat]
  refine ⟨h.definitions, ⟨?_, ?_, ?_⟩, hat ▸ h.keys, hp ▸ h.once, fun p hm => ?_, hat ▸ h.free,
    hconstants ▸ h.fates, hd ▸ h.faults, hh.trans h.hanging⟩
  · rw [hat, ← h.flat.modules, hu]
  · rw [← h.flat.active, hu]
  · rw [← h.flat.current, hu]
  · obtain ⟨hk, ht, hs, hm, he⟩ := h.queued p (hp ▸ hm)
    exact ⟨hk, ht, hs, hm, by rw [hat]; exact he⟩

theorem asked (hab : Asked a b) : Ledger ds rest settled b := by
  obtain ⟨_, used, rfl⟩ := hab
  exact h.same ⟨used, rfl⟩ rfl rfl rfl

theorem evalAt (he : e.isConstant = true) (origin : UInt16) :
    (a.evalAt ⟨none, 0, origin⟩ e).1 = e.outcome a.symbols.constants :=
  evalAt_constant he fun ref _ => h.flat.symbol origin ref

theorem settled_mem {entry : (String × Expr) × Option Fault} (hm : entry ∈ settled) : entry.1 ∈ ds :=
  h.once.subset (mem_append_left _ (mem_map_of_mem hm))

end

/-! ### Definitions one by one -/

/-- The definition `d` is the next one, on its line or in the queue. -/
structure Takes (a : Assembly) (rest : List (String × Expr)) (d : String × Expr) (queue : Array Patch)
    (later : List (String × Expr)) : Prop where
  once : (d :: (queue.toList.map Patch.definition ++ later)).Perm (a.pending.toList.map Patch.definition ++ rest)
  queued : ∀ p ∈ queue, p ∈ a.pending
  later : ∀ x ∈ later, x ∈ rest

theorem Takes.line (a : Assembly) (d : String × Expr) (rest : List (String × Expr)) :
    Takes a (d :: rest) d a.pending rest :=
  ⟨perm_middle.symm, fun _ hp => hp, fun _ => mem_cons_of_mem d⟩

theorem Takes.patch {kept later : List Patch} (hq : a.pending.toList = kept ++ p :: later)
    (rest : List (String × Expr)) : Takes a rest p.definition (kept ++ later).toArray rest := by
  refine ⟨?_, fun q hm => mem_pending_of_taken hq hm, fun _ hx => hx⟩
  rw [hq]
  simp only [map_append, map_cons, append_assoc, cons_append]
  exact perm_middle.symm

section
variable {d : String × Expr} {queue : Array Patch} {later : List (String × Expr)}

section
variable (h : Ledger ds rest settled a) (ht : Takes a rest d queue later)
include h ht

theorem once_taken (fault? : Option Fault) :
    (((d, fault?) :: settled).map fst ++ (queue.toList.map Patch.definition ++ later)).Perm ds :=
  perm_middle.symm.trans ((ht.once.append_left _).trans h.once)

theorem other_names : (∀ q ∈ queue, q.definition.1 ≠ d.1) ∧ ∀ x ∈ later, x.1 ≠ d.1 := by
  have hall := (h.once.map fst).nodup_iff.2 h.definitions.names
  rw [map_append] at hall
  have hnotMem := (nodup_cons.1 ((ht.once.map fst).nodup_iff.2 (nodup_append.1 hall).2.1)).1
  rw [map_append, mem_append, not_or] at hnotMem
  constructor
  · intro q hm heq
    exact hnotMem.1 (heq ▸ mem_map_of_mem (mem_map_of_mem hm.val))
  · intro x hm heq
    exact hnotMem.2 (heq ▸ mem_map_of_mem hm)

theorem faulty (hf : d.2.outcome a.symbols.constants = .error fault) (pos : Position) :
    Ledger ds later ((d, some fault) :: settled) { a.reportAt fault pos with pending := queue } where
  definitions := h.definitions
  flat := h.flat
  keys := h.keys
  once := h.once_taken ht _
  queued p hp := h.queued p (ht.queued p hp)
  free x hx := h.free x (ht.later x hx)
  fates := h.fates.fault hf
  faults := by
    show ((a.diagnostics.push _).toList.map (·.fault)).Perm (fault :: settled.filterMap snd)
    rw [Array.toList_push, map_append]
    exact perm_append_comm.trans (h.faults.cons fault)
  hanging := h.hanging

variable {f : NameTable Symbol → NameTable Symbol} (hf : ∀ name, name ≠ d.1 →
  (f (a.symbols.symbolsAt (.module 0))).get? name = (a.symbols.symbolsAt (.module 0)).get? name)
include hf

theorem entered : (∀ p ∈ queue, p.IsEqu (a.symbols.modifySymbols (.module 0) f)) ∧
    ∀ x ∈ later, ((a.symbols.modifySymbols (.module 0) f).symbolsAt (.module 0)).get? x.1 = none := by
  obtain ⟨hqueue, hlater⟩ := h.other_names ht
  refine ⟨fun p hp => ?_, fun x hx => ?_⟩
  · obtain ⟨hk, htarget, hsc, hm, he⟩ := h.queued p (ht.queued p hp)
    refine ⟨hk, htarget, hsc, hm, ?_⟩
    rw [(h.flat.modifySymbols f).2, hf _ (hqueue p hp)]
    exact he
  · rw [(h.flat.modifySymbols f).2, hf _ (hlater x hx)]
    exact h.free x (ht.later x hx)

theorem value (hv : d.2.outcome a.symbols.constants = .ok (.ready v)) (hfree : a.symbols.constants d.1 = none)
    (hkeys : (f (a.symbols.symbolsAt (.module 0))).keys.Nodup)
    (hs : ((f (a.symbols.symbolsAt (.module 0))).get? d.1).bind (·.value) = some v) :
    Ledger ds later ((d, none) :: settled)
      { a with
        symbols := a.symbols.modifySymbols (.module 0) f
        pending := queue } := by
  obtain ⟨hflat, hat⟩ := h.flat.modifySymbols f
  obtain ⟨hqueued, hlater⟩ := h.entered ht hf
  have hd : d ∈ ds := (h.once_taken ht none).subset (by simp)
  refine ⟨h.definitions, hflat, hat ▸ hkeys, h.once_taken ht none, hqueued, hlater, ?_, h.faults, h.hanging⟩
  show Fates ds _ (a.symbols.modifySymbols (.module 0) f).constants
  rw [h.flat.constants_modify hf, hs]
  exact h.fates.value h.definitions (fun _ => h.settled_mem) hd hfree hv

end

/-! ### Lines -/

theorem free_constant (h : Ledger ds (d :: rest) settled a) : a.symbols.constants d.1 = none := by
  unfold constants
  rw [h.free d mem_cons_self]
  rfl

theorem value_line (h : Ledger ds (d :: rest) settled a) (hv : d.2.outcome a.symbols.constants = .ok (.ready v))
    (hs : s.name = d.1) (hsv : s.value = some v) :
    Ledger ds rest ((d, none) :: settled) { a with symbols := a.symbols.addSymbol (.module 0) s } := by
  refine h.value (.line a d rest) (fun name hn => get?_insert_other _ _ (hs ▸ hn)) hv h.free_constant
    (nodup_keys_insert h.keys (hs ▸ h.free d mem_cons_self) s) ?_
  rw [← hs, get?_insert_self]
  exact hsv

theorem wait_line (h : Ledger ds (d :: rest) settled a) (hs : s.name = d.1) (hsv : s.value = none) :
    Ledger ds rest settled
      (addPatch { a with symbols := a.symbols.addSymbol (.module 0) s } .equ a.lastSegment 0
        d.2 (some (.module 0, d.1))) := by
  have hother {name : String} (hn : name ≠ d.1) : ((a.symbols.symbolsAt (.module 0)).insert s.name s).get? name =
      (a.symbols.symbolsAt (.module 0)).get? name := get?_insert_other _ _ (hs ▸ hn)
  have hself : ((a.symbols.symbolsAt (.module 0)).insert s.name s).get? d.1 = some s := by
    rw [← hs, get?_insert_self]
  obtain ⟨hqueued, hrest⟩ := h.entered (f := (·.insert s.name s)) (.line a d rest) fun _ => hother
  obtain ⟨hflat, hat⟩ := h.flat.modifySymbols (·.insert s.name s)
  have hkeys := nodup_keys_insert h.keys (hs ▸ h.free d mem_cons_self) s
  refine ⟨h.definitions, hflat, hat ▸ hkeys, ?_, fun p hp => ?_, hrest, ?_, h.faults, h.hanging⟩
  · unfold addPatch
    simp only [Array.toList_push, map_append, append_assoc]
    exact h.once
  · rcases Array.mem_push.1 hp with hp | rfl
    · exact hqueued p hp
    · refine ⟨rfl, rfl, ?_, h.flat.current, s, ?_, hsv⟩
      · show a.symbols.active.head? = none
        rw [h.flat.active]
        rfl
      · exact hat ▸ hself
  · have hconstants : (a.symbols.addSymbol (.module 0) s).constants = a.symbols.constants := by
      unfold addSymbol
      rw [h.flat.constants_modify fun _ => hother, hself]
      funext name
      split
      · next hn => rw [hn, h.free_constant, Option.bind_some, hsv]
      · rfl
    show Fates ds _ (a.symbols.addSymbol (.module 0) s).constants
    rw [hconstants]
    exact h.fates

theorem define_free (h : Ledger ds ((upcase label, e) :: rest) settled a)
    (value : Option Value) : a.define label .equ value = (.ok (.module 0), { a with
        symbols := a.symbols.addSymbol (.module 0) ⟨upcase label, .equ, value, a.pos⟩ }) := by
  have hslot : a.symbols.labelSlot (upcase label) = .module 0 := by
    unfold labelSlot top?
    rw [h.flat.active, h.flat.current]
    rfl
  have hfree : a.symbols.isTaken (.module 0) (upcase label) = false := by
    unfold isTaken NameTable.contains
    rw [h.free _ mem_cons_self]
    rfl
  unfold Assembly.define
  dsimp only
  rw [hslot, hfree]
  rfl

/-- The definition of the next line is settled, or waits in the queue. -/
theorem line (h : Ledger ds ((upcase label, e) :: rest) settled a) :
    ∃ settled, Ledger ds rest settled ((reporting (defineEqu e (some label))).run a).2 := by
  have hplace : a.place = ⟨none, 0, a.origin⟩ := by
    unfold place top?
    rw [h.flat.active, h.flat.current]
    rfl
  have hd : (upcase label, e) ∈ ds := h.once.subset (by simp)
  have hvalue := h.evalAt (h.definitions.exprs _ hd) a.origin
  rw [← hplace] at hvalue
  rw [run_reporting]
  rcases he : a.evalAt a.place e with ⟨outcome, b⟩
  have hb := h.asked (.ofEvalAt he)
  have hsame : b.symbols.constants = a.symbols.constants := by
    obtain ⟨_, _, rfl⟩ := Asked.ofEvalAt he
    rfl
  rw [he, ← hsame] at hvalue
  have heval : (evalExpr e).run.run a = (outcome, b) := he
  cases outcome with
  | error fault =>
    have hrun : (defineEqu e (some label)).run.run a = (.error fault, b) := run_bind_error heval
    rw [hrun]
    exact ⟨_, hb.faulty (.line b _ rest) hvalue.symm b.pos⟩
  | ok result =>
    cases result with
    | ready v =>
      have hdefine : (of fun a => a.define label .equ (some v)).run.run b = _ := hb.define_free (some v)
      have hrun : (defineEqu e (some label)).run.run a = (.ok (), _) :=
        (run_bind_ok heval).trans (run_bind_ok hdefine)
      rw [hrun]
      exact ⟨_, hb.value_line hvalue.symm rfl rfl⟩
    | pending names =>
      have hdefine : (of fun a => a.define label .equ none).run.run b = _ := hb.define_free none
      have hrun : (defineEqu e (some label)).run.run a = (.ok (), _) :=
        (run_bind_ok heval).trans (run_bind_ok hdefine)
      rw [hrun]
      exact ⟨_, hb.wait_line rfl rfl⟩

/-! ### Sweeps -/

theorem value_patch {kept later : List Patch} (h : Ledger ds rest settled a)
    (hq : a.pending.toList = kept ++ p :: later) (hv : p.expr.outcome a.symbols.constants = .ok (.ready v)) :
    Ledger ds rest ((p.definition, none) :: settled)
      { a with
        symbols := a.symbols.assign (.module 0) p.definition.1 v
        pending := (kept ++ later).toArray } := by
  obtain ⟨s, hs, hsv⟩ := (h.queued p (Array.mem_toList_iff.1 (by simp [hq]))).entered
  refine h.value (.patch hq rest) (fun name hn => get?_modify_other _ _ hn) hv ?_ ?_ ?_
  · unfold constants
    rw [hs]
    exact hsv
  · rw [keys_modify]
    exact h.keys
  · rw [get?_modify_self, hs]
    rfl

/-- A patch that is settled settles its definition. -/
theorem settle {kept later : List Patch} (h : Ledger ds rest settled a) (hq : a.pending.toList = kept ++ p :: later)
    {o : Settlement} (hs : Settles a p o b) : ∃ fault?,
      Ledger ds rest ((p.definition, fault?) :: settled) { b with pending := (kept ++ later).toArray } := by
  have hmem : p ∈ a.pending := Array.mem_toList_iff.1 (by simp [hq])
  have hequ := h.queued p hmem
  have hc : p.expr.isConstant = true :=
    h.definitions.exprs p.definition ((h.once_taken (.patch hq rest) none).subset (by simp))
  have hvalue : (a.evalAt p.place p.expr).1 = p.expr.outcome a.symbols.constants := by
    rw [hequ.place, h.evalAt hc]
  have hafter {c : Assembly} (hasked : Asked a c) : Ledger ds rest settled c ∧
      c.symbols.constants = a.symbols.constants ∧ c.pending.toList = kept ++ p :: later := by
    refine ⟨h.asked hasked, ?_, by rw [hasked.pending, hq]⟩
    obtain ⟨_, _, rfl⟩ := hasked
    rfl
  have happly (c : Assembly) (v : Value) : c.applyPatch p v =
      .ok { c with symbols := c.symbols.assign (.module 0) p.definition.1 v } := by
    unfold applyPatch
    rw [hequ.kind, hequ.target]
  cases hs with
  | @applied c b v he ha =>
    obtain ⟨hc', hsame, hq'⟩ := hafter (.ofEvalAt he)
    rw [happly] at ha
    cases ha
    rw [he] at hvalue
    exact ⟨none, hc'.value_patch hq' (by rw [hsame]; exact hvalue.symm)⟩
  | refused he ha =>
    rw [happly] at ha
    cases ha
  | @failed c fault he =>
    obtain ⟨hc', hsame, hq'⟩ := hafter (.ofEvalAt he)
    rw [he] at hvalue
    exact ⟨some fault, hc'.faulty (.patch hq' rest) (by rw [hsame]; exact hvalue.symm) p.pos⟩

theorem resolution (h : Ledger ds rest settled a) {log : List (Patch × Settlement)}
    (hr : Resolution a log b) : ∃ settled, Ledger ds rest settled b := by
  induction hr generalizing settled with
  | refl a => exact ⟨settled, h⟩
  | @wait a b log p _ _ _ ih => exact ih (h.asked (.evalAt a p.place p.expr))
  | settle hq hs _ ih =>
    obtain ⟨fault?, h'⟩ := h.settle hq hs
    exact ih h'

/-! ### The end -/

theorem outcome_of_waits (h : Ledger ds rest settled a) (hp : p ∈ a.pending) (hw : p.Waits a) :
    p.expr.outcome a.symbols.constants = .ok (.pending (p.missing a)) := by
  have hd : p.definition ∈ ds := h.once.subset
    (mem_append_right _ (mem_append_left _ (mem_map_of_mem hp.val)))
  rw [← evalAt_waits hw, (h.queued p hp).place]
  exact (h.evalAt (h.definitions.exprs _ hd) p.origin).symm

theorem closed (h : Ledger ds [] settled a) (hw : ∀ p ∈ a.pending, p.Waits a) : a.symbols.constants.Closed ds := by
  intro d hd v hv
  rcases mem_append.1 (h.once.symm.subset hd) with hm | hm
  · obtain ⟨⟨d, o⟩, hentry, rfl⟩ := mem_map.1 hm
    have hdecided := h.fates.decided _ hentry
    cases o with
    | none =>
      obtain ⟨w, ho, hk⟩ := hdecided
      rw [ho] at hv
      cases hv
      exact hk
    | some fault =>
      have ho : d.2.outcome a.symbols.constants = .error fault := hdecided
      rw [ho] at hv
      cases hv
  · rw [append_nil] at hm
    obtain ⟨p, hp, rfl⟩ := mem_map.1 hm
    have hpending := h.outcome_of_waits (Array.mem_toList_iff.1 hp) (hw p (Array.mem_toList_iff.1 hp))
    have hv : p.expr.outcome a.symbols.constants = .ok (.ready v) := hv
    rw [hpending] at hv
    cases hv

theorem reports (h : Ledger ds [] settled a) (hw : ∀ p ∈ a.pending, p.Waits a) : (a.diagnostics.toList.map (·.fault) ++
      a.pending.toList.map fun p => Fault.waiting (p.missing a)).Perm
      (ds.filterMap fun d => d.2.fault? a.symbols.constants) := by
  have hsettled : settled.filterMap snd =
      (settled.map fst).filterMap fun d => d.2.fault? a.symbols.constants := by
    rw [filterMap_map]
    exact filterMap_congr fun entry hm => (h.fates.decided entry hm).fault?.symm
  have hleft : (a.pending.toList.map fun p => Fault.waiting (p.missing a)) =
      (a.pending.toList.map Patch.definition).filterMap fun d => d.2.fault? a.symbols.constants := by
    rw [filterMap_map, ← filterMap_eq_map]
    refine filterMap_congr fun p hp => ?_
    have hpending := h.outcome_of_waits (Array.mem_toList_iff.1 hp) (hw p (Array.mem_toList_iff.1 hp))
    show some _ = p.expr.fault? a.symbols.constants
    unfold Expr.fault?
    rw [hpending]
  have honce := h.once.filterMap fun d => d.2.fault? a.symbols.constants
  rw [append_nil, filterMap_append, ← hsettled, ← hleft] at honce
  exact (h.faults.append_right _).trans honce

theorem resolveAll (h : Ledger ds [] settled a) : a.resolveAll.symbols.constants.Closed ds ∧
    (∀ k, k.Closed ds → a.resolveAll.symbols.constants.Below k) ∧ (a.resolveAll.diagnostics.toList.map (·.fault)).Perm
      (ds.filterMap fun d => d.2.fault? a.resolveAll.symbols.constants) ∧
    ∀ name, (a.resolveAll.symbols.exported.get? name).bind (·.value) = a.resolveAll.symbols.constants name := by
  obtain ⟨log, hr, -⟩ := sweeps_resolution none a.pending.size a
  obtain ⟨settled', hs⟩ := h.resolution hr
  have hwaits := waits_of_sweeps a
  have hdiagnostics := diagnostics_resolveAll a
  obtain ⟨used, hu⟩ := (resolveAll_noted a).symbols
  generalize sweeps none a.pending.size a = stalled at *
  have hat : a.resolveAll.symbols.symbolsAt (.module 0) = stalled.symbols.symbolsAt (.module 0) := by
    rw [hu]
    rfl
  have hconstants : a.resolveAll.symbols.constants = stalled.symbols.constants := by
    unfold constants
    rw [hat]
  have hflat : a.resolveAll.symbols.IsFlat := by
    rw [hu]
    exact ⟨hs.flat.modules, hs.flat.active, hs.flat.current⟩
  rw [hconstants]
  refine ⟨hs.closed hwaits, hs.fates.least, ?_, fun name => ?_⟩
  · rw [hdiagnostics]
    simpa [Setup.diagnostic, Function.comp_def] using hs.reports hwaits
  · rw [hflat.get?_exported (hat ▸ hs.keys), hat]
    rfl

end

end Ledger

end SpectrumAsm
