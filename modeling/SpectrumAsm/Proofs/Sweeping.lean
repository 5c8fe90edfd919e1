/-
Sweeps through the queue of waiting patches.

A sweep takes the queue apart and puts together what is kept of it. Seen from outside it is a sequence of
attempts on a queue that stays in its place (`Resolution`): an attempt either leaves the patch where it is or
settles it and takes it out.
-/
import SpectrumAsm.Proofs.Lookups
import SpectrumAsm.Proofs.Moves

namespace SpectrumAsm

open List Assembly

variable {a b : Assembly} {p : Patch} {o : Settlement} {log : List (Patch × Settlement)}
  {scope : Option Nat}

/-! ## Attempts -/

/-- What became of a patch that was settled. -/
inductive Settlement where
  /-- its value was put where it belongs -/
  | applied (v : Value)
  /-- its value does not fit there -/
  | refused (v : Value) (fault : Fault)
  /-- its expression has no value -/
  | failed (fault : Fault)

def Settlement.fault? : Settlement → Option Fault
  | applied _ => none
  | refused _ fault | failed fault => some fault

/-- An attempt that settles a patch. -/
inductive Settles (a : Assembly) (p : Patch) : Settlement → Assembly → Prop where
  | applied {b c : Assembly} {v : Value} (he : a.evalAt p.place p.expr = (.ok (.ready v), b))
    (ha : b.applyPatch p v = .ok c) : Settles a p (.applied v) c
  | refused {b : Assembly} {v : Value} {fault : Fault}
    (he : a.evalAt p.place p.expr = (.ok (.ready v), b)) (ha : b.applyPatch p v = .error fault) :
    Settles a p (.refused v fault) (b.reportAt fault p.pos)
  | failed {b : Assembly} {fault : Fault} (he : a.evalAt p.place p.expr = (.error fault, b)) :
    Settles a p (.failed fault) (b.reportAt fault p.pos)

def Patch.Waits (p : Patch) (a : Assembly) : Prop := p.expr.Waits (a.symbols.env p.place)

theorem Asked.waits (h : Asked a b) : p.Waits b ↔ p.Waits a := by
  unfold Patch.Waits
  rw [h.env]

theorem tryPatch_cases (a : Assembly) (p : Patch) : (p.Waits a ∧ a.tryPatch p = (false, (a.evalAt p.place p.expr).2)) ∨
      (¬ p.Waits a ∧ ∃ o b, Settles a p o b ∧ a.tryPatch p = (true, b)) := by
  have hiff := @evalAt_pending_iff a p.expr p.place
  unfold tryPatch
  rcases he : a.evalAt p.place p.expr with ⟨fault | v | names, b⟩ <;> rw [he] at hiff
  · refine .inr ⟨fun hw => ?_, .failed fault, _, .failed he, rfl⟩
    have := hiff.2 ⟨hw, rfl⟩
    cases this
  · refine .inr ⟨fun hw => ?_, ?_⟩
    · have := hiff.2 ⟨hw, rfl⟩
      cases this
    · dsimp only
      split
      · next c hc => exact ⟨.applied v, c, .applied he hc, rfl⟩
      · next fault hc => exact ⟨.refused v fault, _, .refused he hc, rfl⟩
  · exact .inl ⟨(hiff.1 rfl).1, rfl⟩

theorem Settles.tryPatch (h : Settles a p o b) : a.tryPatch p = (true, b) := by
  unfold Assembly.tryPatch
  cases h with
  | applied he ha | refused he ha => rw [he]; dsimp only; rw [ha]
  | failed he => rw [he]

theorem settles_of_tryPatch (h : a.tryPatch p = (true, b)) : ∃ o, Settles a p o b := by
  rcases tryPatch_cases a p with ⟨-, ht⟩ | ⟨-, o, c, hs, ht⟩
  · rw [h] at ht
    cases ht
  · rw [h] at ht
    cases ht
    exact ⟨o, hs⟩

/-- A patch sets a constant, an entry address, or bytes. -/
theorem applyPatch_cases {v : Value} (h : a.applyPatch p v = .ok b) :
    (∃ slot name, p.kind = .equ ∧ p.target = some (slot, name) ∧
      b = { a with symbols := a.symbols.assign slot name v }) ∨
      (∃ entry exportEntry, b = { a with entry, exportEntry } ∧ (p.kind ≠ .entry → entry = a.entry) ∧
        (p.kind ≠ .exportEntry → exportEntry = a.exportEntry)) ∨
      ∃ offset bytes, b = a.patchBytes p.segment offset bytes ∧ 0 < p.kind.span := by
  unfold applyPatch at h
  cases hk : p.kind with
  | equ =>
    rw [hk] at h
    cases ht : p.target with
    | none => rw [ht] at h; cases h; exact .inr (.inl ⟨_, _, rfl, fun _ => rfl, fun _ => rfl⟩)
    | some target => rw [ht] at h; cases h; exact .inl ⟨_, _, rfl, rfl, rfl⟩
  | branch =>
    rw [hk] at h
    cases hw : v.lowWord with
    | error _ => rw [hw] at h; cases h
    | ok w =>
      rw [hw] at h
      simp only [bind, Except.bind] at h
      split at h
      · cases h
        exact .inr (.inl ⟨_, _, rfl, fun _ => rfl, fun _ => rfl⟩)
      · split at h <;> cases h
        exact .inr (.inr ⟨_, _, rfl, Nat.one_pos⟩)
  | entry =>
    rw [hk] at h
    cases hw : v.lowWord <;> rw [hw] at h <;> cases h
    exact .inr (.inl ⟨_, _, rfl, absurd rfl, fun _ => rfl⟩)
  | exportEntry =>
    rw [hk] at h
    cases hw : v.lowWord <;> rw [hw] at h <;> cases h
    exact .inr (.inl ⟨_, _, rfl, fun _ => rfl, absurd rfl⟩)
  | byte | word | fieldByte | fieldWord =>
    rw [hk] at h
    cases hw : v.lowWord <;> rw [hw] at h <;> cases h
    exact .inr (.inr ⟨_, _, rfl, by decide⟩)

/-! ## The queue does not matter to an attempt -/

theorem Assembly.evalAt_setPending (a : Assembly) (q : Array Patch) (place : Place) (e : Expr) :
    evalAt { a with pending := q } place e =
      ((a.evalAt place e).1, { (a.evalAt place e).2 with pending := q }) := rfl

theorem Assembly.applyPatch_setPending (a : Assembly) (q : Array Patch) (p : Patch) (v : Value) :
    applyPatch { a with pending := q } p v = (a.applyPatch p v).map fun b => { b with pending := q } := by
  unfold applyPatch
  cases p.kind with
  | equ =>
    cases p.target with
    | none => rfl
    | some target => rfl
  | branch =>
    cases v.lowWord with
    | error _ => rfl
    | ok w =>
      simp only [bind, Except.bind]
      cases a.segments[p.segment]? with
      | none => rfl
      | some s => dsimp only; cases branchByte w (s.wordAt p.offset) <;> rfl
  | _ => dsimp only; cases v.lowWord <;> rfl

theorem Settles.setPending (h : Settles a p o b) (q : Array Patch) :
    Settles { a with pending := q } p o { b with pending := q } := by
  cases h with
  | @applied b _ v he ha =>
    refine .applied (b := { b with pending := q }) ?_ ?_
    · rw [evalAt_setPending, he]
    · rw [applyPatch_setPending, ha]; rfl
  | @refused b v fault he ha =>
    refine .refused (b := { b with pending := q }) ?_ ?_
    · rw [evalAt_setPending, he]
    · rw [applyPatch_setPending, ha]; rfl
  | @failed b fault he =>
    refine .failed (b := { b with pending := q }) ?_
    rw [evalAt_setPending, he]

/-! ## Sequences of attempts -/

/-- Attempts on patches of the queue. The log names the patches that were settled, in order, with
what became of them. -/
inductive Resolution : Assembly → List (Patch × Settlement) → Assembly → Prop where
  | refl (a : Assembly) : Resolution a [] a
  | wait {a b : Assembly} {log : List (Patch × Settlement)} {p : Patch} (hp : p ∈ a.pending.toList)
    (hw : p.Waits a) (h : Resolution (a.evalAt p.place p.expr).2 log b) : Resolution a log b
  | settle {a b c : Assembly} {log : List (Patch × Settlement)} {kept rest : List Patch} {p : Patch}
    {o : Settlement} (hq : a.pending.toList = kept ++ p :: rest) (hs : Settles a p o b)
    (h : Resolution { b with pending := (kept ++ rest).toArray } log c) :
    Resolution a ((p, o) :: log) c

section
variable (h : Resolution a log b)
include h

theorem Resolution.trans {c : Assembly} {more : List (Patch × Settlement)} (h' : Resolution b more c) :
    Resolution a (log ++ more) c := by
  induction h with
  | refl => exact h'
  | wait hp hw _ ih => exact .wait hp hw (ih h')
  | settle hq hs _ ih => exact .settle hq hs (ih h')

theorem Resolution.moves : Moves a b := by
  induction h with
  | refl => exact .refl
  | wait _ _ _ ih => exact (Moves.ofAsked (.evalAt _ _ _)).trans ih
  | settle hq hs _ ih => exact .head (.settle hq hs.tryPatch) ih

theorem Resolution.perm : (log.map Prod.fst ++ b.pending.toList).Perm a.pending.toList := by
  induction h with
  | refl a => exact .refl _
  | @wait a b log p _ _ _ ih => rwa [(Asked.evalAt a p.place p.expr).pending] at ih
  | settle hq _ _ ih =>
    rw [hq]
    exact (ih.cons _).trans perm_middle.symm

theorem Resolution.size_add : log.length + b.pending.size = a.pending.size := by
  simpa using h.perm.length_eq

end

/-! ## What attempts keep -/

/-- What can become of a patch leads to a related state. -/
structure Settling (R : Assembly → Assembly → Prop) : Prop where
  asked : ∀ {a b : Assembly}, Asked a b → R a b
  reportAt : ∀ (a : Assembly) (fault : Fault) (pos : Position), R a (a.reportAt fault pos)
  assign : ∀ (a : Assembly) (slot : Slot) (key : String) (v : Value),
    R a { a with symbols := a.symbols.assign slot key v }
  setEntries : ∀ (a : Assembly) (entry exportEntry : Option UInt16), R a { a with entry, exportEntry }
  patchBytes : ∀ (a : Assembly) (segment offset : Nat) (bytes : List UInt8), R a (a.patchBytes segment offset bytes)
  setPending : ∀ (a : Assembly) (pending : Array Patch), R a { a with pending }

/-- What is read off a state is the same in another one. -/
def Unchanged {α : Type} (f : Assembly → α) (a b : Assembly) : Prop := f b = f a

instance {α : Type} (f : Assembly → α) : IsPreorder Assembly (Unchanged f) where
  refl _ := rfl
  trans _ _ _ h h' := Eq.trans h' h

namespace Settling

variable {R : Assembly → Assembly → Prop} [IsPreorder Assembly R] (h : Settling R)
include h

theorem settles (hs : Settles a p o b) : R a b := by
  cases hs with
  | @applied c _ v he ha =>
    refine IsTrans.trans a c b (h.asked (.ofEvalAt he)) ?_
    rcases applyPatch_cases ha with ⟨slot, name, -, -, rfl⟩ | ⟨_, _, rfl, -⟩ | ⟨offset, bytes, rfl, -⟩
    · exact h.assign c slot name v
    · exact h.setEntries c _ _
    · exact h.patchBytes c p.segment offset bytes
  | @refused c _ fault he _ | @failed c fault he =>
    exact IsTrans.trans a c _ (h.asked (.ofEvalAt he)) (h.reportAt c fault p.pos)

theorem resolution (hr : Resolution a log b) : R a b := by
  induction hr with
  | refl a => exact refl a
  | wait _ _ _ ih => exact IsTrans.trans _ _ _ (h.asked (.evalAt _ _ _)) ih
  | @settle _ b _ _ _ _ _ _ _ hs _ ih =>
    exact IsTrans.trans _ _ _ (h.settles hs) (IsTrans.trans _ _ _ (h.setPending b _) ih)

end Settling

theorem Asked.frames (h : Asked a b) : b.symbols.scopes.map Scope.frame = a.symbols.scopes.map Scope.frame := by
  obtain ⟨_, _, rfl⟩ := h
  rfl

theorem frames_settling : Settling (Unchanged fun a => a.symbols.scopes.map Scope.frame) where
  asked h := h.frames
  reportAt _ _ _ := rfl
  assign a slot _ _ := (a.symbols.sameFrames_modifySymbols slot _).frames
  setEntries _ _ _ := rfl
  patchBytes _ _ _ _ := rfl
  setPending _ _ := rfl

theorem Settles.frames (h : Settles a p o b) :
    b.symbols.scopes.map Scope.frame = a.symbols.scopes.map Scope.frame := frames_settling.settles h

theorem Resolution.frames (h : Resolution a log b) :
    b.symbols.scopes.map Scope.frame = a.symbols.scopes.map Scope.frame := frames_settling.resolution h

theorem Assembly.isInside_eq (h : b.symbols.scopes.map Scope.frame = a.symbols.scopes.map Scope.frame)
    (scope : Option Nat) (p : Patch) : b.isInside scope p = a.isInside scope p := by
  cases scope with
  | none => rfl
  | some id =>
    refine congrArg (·.contains id) (SymbolTable.chain_eq fun j _ => ?_)
    rw [SymbolTable.parent?_frame, SymbolTable.parent?_frame, ← Array.getElem?_map, ← Array.getElem?_map, h]

theorem Asked.isInside (h : Asked a b) (scope : Option Nat) (p : Patch) :
    b.isInside scope p = a.isInside scope p := isInside_eq h.frames scope p

/-! ## Sweeps as attempts -/

theorem sweepStep_eq (scope : Option Nat) (equs : Bool) (kept : Array Patch) (a : Assembly)
    (p : Patch) : sweepStep scope equs (kept, a) p = if (p.kind == .equ) == equs && a.isInside scope p then
        match a.tryPatch p with
        | (true, a) => (kept, a)
        | (false, a) => (kept.push p, a)
      else (kept.push p, a) := rfl

/-- A sweep settles only patches of its kind inside of its scope. -/
theorem foldl_sweepStep_resolution (scope : Option Nat) (equs : Bool) (rest : List Patch)
    (kept : Array Patch) (a : Assembly) :
    ∃ log, Resolution { a with pending := kept ++ rest.toArray } log
      { (rest.foldl (sweepStep scope equs) (kept, a)).2 with
        pending := (rest.foldl (sweepStep scope equs) (kept, a)).1 } ∧
      ∀ entry ∈ log, (entry.1.kind == .equ) = equs ∧ a.isInside scope entry.1 = true := by
  induction rest generalizing kept a with
  | nil =>
    exact ⟨[], .refl _, fun _ hm => absurd hm not_mem_nil⟩
  | cons p rest ih =>
    have hqueue : kept ++ (p :: rest).toArray = kept.push p ++ rest.toArray := by simp
    rw [foldl_cons, hqueue, sweepStep_eq]
    split
    · next hmeant =>
      rcases tryPatch_cases a p with ⟨hw, ht⟩ | ⟨-, o, b, hs, ht⟩
      · rw [ht]
        obtain ⟨log, h, hin⟩ := ih (kept.push p) (a.evalAt p.place p.expr).2
        refine ⟨log, .wait (p := p) (by simp) hw h, fun entry hm => ?_⟩
        rw [← (Asked.evalAt a p.place p.expr).isInside]
        exact hin entry hm
      · rw [ht]
        obtain ⟨log, h, hin⟩ := ih kept b
        have hrest : (kept.toList ++ rest).toArray = kept ++ rest.toArray := Array.ext' (by simp)
        have hq : (kept.push p ++ rest.toArray).toList = kept.toList ++ p :: rest := by simp
        refine ⟨(p, o) :: log, .settle hq (hs.setPending _) ?_, fun entry hm => ?_⟩
        · rw [hrest]
          exact h
        · rcases mem_cons.1 hm with rfl | hm
          · simpa using hmeant
          · rw [← isInside_eq hs.frames]
            exact hin entry hm
    · exact ih (kept.push p) a

theorem sweep_resolution (a : Assembly) (scope : Option Nat) (equs : Bool) :
    ∃ log, Resolution a log (a.sweep scope equs) ∧
      ∀ entry ∈ log, (entry.1.kind == .equ) = equs ∧ a.isInside scope entry.1 = true := by
  obtain ⟨log, h, hin⟩ := foldl_sweepStep_resolution scope equs a.pending.toList #[] { a with pending := #[] }
  refine ⟨log, ?_, hin⟩
  simp only [Array.toArray_toList, Array.empty_append] at h
  unfold sweep
  dsimp only
  rw [← Array.foldl_toList]
  exact h

theorem sweeps_resolution (scope : Option Nat) (n : Nat) (a : Assembly) :
    ∃ log, Resolution a log (sweeps scope n a) ∧ ∀ entry ∈ log, a.isInside scope entry.1 = true := by
  induction n generalizing a with
  | zero => exact ⟨[], .refl a, fun _ hm => absurd hm not_mem_nil⟩
  | succ n ih =>
    obtain ⟨log₁, h₁, hin₁⟩ := sweep_resolution a scope true
    obtain ⟨log₂, h₂, hin₂⟩ := sweep_resolution (a.sweep scope true) scope false
    have hin : ∀ entry ∈ log₁ ++ log₂, a.isInside scope entry.1 = true := fun entry hm => by
      rcases mem_append.1 hm with hm | hm
      · exact (hin₁ entry hm).2
      · rw [← isInside_eq h₁.frames]
        exact (hin₂ entry hm).2
    unfold sweeps
    dsimp only
    split
    · obtain ⟨log₃, h₃, hin₃⟩ := ih ((a.sweep scope true).sweep scope false)
      refine ⟨_, (h₁.trans h₂).trans h₃, fun entry hm => ?_⟩
      rcases mem_append.1 hm with hm | hm
      · exact hin entry hm
      · rw [← isInside_eq (h₁.trans h₂).frames]
        exact hin₃ entry hm
    · exact ⟨_, h₁.trans h₂, hin⟩

theorem Settling.resolveScope {R : Assembly → Assembly → Prop} [IsPreorder Assembly R] (h : Settling R)
    (a : Assembly) (id : Nat) : R a (a.resolveScope id) := by
  obtain ⟨log, hr, -⟩ := sweeps_resolution (some id) a.pending.size a
  exact h.resolution hr

/-! ## Sweeps that settle nothing -/

/-- The rest of a sweep that keeps everything: nothing was settled, and what was tried has to wait. -/
theorem foldl_sweepStep_stuck {equs : Bool} {rest : List Patch} {kept : Array Patch}
    (h : (rest.foldl (sweepStep scope equs) (kept, a)).1.size = kept.size + rest.length) :
    Asked a (rest.foldl (sweepStep scope equs) (kept, a)).2 ∧
      (rest.foldl (sweepStep scope equs) (kept, a)).1 = kept ++ rest.toArray ∧
      ∀ p ∈ rest, ((p.kind == .equ) == equs && a.isInside scope p) = true → p.Waits a := by
  induction rest generalizing kept a with
  | nil => exact ⟨.refl a, by simp, fun p hp => by cases hp⟩
  | cons p rest ih =>
    have hqueue : kept ++ (p :: rest).toArray = kept.push p ++ rest.toArray := by simp
    have hsize : kept.size + (p :: rest).length = (kept.push p).size + rest.length := by
      simp only [length_cons, Array.size_push]
      omega
    rw [foldl_cons, sweepStep_eq] at h ⊢
    rw [hqueue]
    rw [hsize] at h
    by_cases hmeant : ((p.kind == .equ) == equs && a.isInside scope p) = true
    · rw [if_pos hmeant] at h ⊢
      rcases tryPatch_cases a p with ⟨hw, ht⟩ | ⟨-, o, b, hs, ht⟩
      · rw [ht] at h ⊢
        obtain ⟨hasked, hkept, hwaits⟩ := ih h
        have htried := Asked.evalAt a p.place p.expr
        refine ⟨htried.trans hasked, hkept, fun q hq hm => ?_⟩
        rcases mem_cons.1 hq with rfl | hq
        · exact hw
        · exact htried.waits.1 (hwaits q hq (by rw [htried.isInside]; exact hm))
      · -- A settled patch is missing at the end.
        rw [ht] at h
        obtain ⟨log, hr, -⟩ := foldl_sweepStep_resolution scope equs rest kept b
        have := hr.size_add
        simp only [Array.size_append, size_toArray] at this
        simp only [Array.size_push] at h
        omega
    · rw [if_neg hmeant] at h ⊢
      obtain ⟨hasked, hkept, hwaits⟩ := ih h
      refine ⟨hasked, hkept, fun q hq hm => ?_⟩
      rcases mem_cons.1 hq with rfl | hq
      · exact absurd hm hmeant
      · exact hwaits q hq hm

theorem sweep_stuck {equs : Bool} (h : (a.sweep scope equs).pending.size = a.pending.size) :
    Asked a (a.sweep scope equs) ∧
      ∀ p ∈ a.pending, ((p.kind == .equ) == equs && a.isInside scope p) = true → p.Waits a := by
  unfold sweep at h ⊢
  dsimp only at h ⊢
  rw [← Array.foldl_toList] at h ⊢
  have hsize : (a.pending.toList.foldl (sweepStep scope equs)
      (#[], { a with pending := #[] })).1.size = (#[] : Array Patch).size + a.pending.toList.length := by
    rw [h]
    simp
  obtain ⟨⟨random, used, hasked⟩, hkept, hwaits⟩ := foldl_sweepStep_stuck hsize
  refine ⟨⟨random, used, ?_⟩, fun p hp hm => hwaits p hp.val hm⟩
  rw [hkept, hasked]
  simp

/-- With as many sweeps as patches, only those are left that have to wait. -/
theorem sweeps_stuck {n : Nat} (hn : a.pending.size ≤ n) : ∀ p ∈ (sweeps scope n a).pending,
      (sweeps scope n a).isInside scope p = true → p.Waits (sweeps scope n a) := by
  induction n generalizing a with
  | zero =>
    intro p hp
    have hempty : a.pending = #[] := Array.eq_empty_of_size_eq_zero (by omega)
    rw [sweeps, hempty] at hp
    exact absurd hp (Array.not_mem_empty p)
  | succ n ih =>
    obtain ⟨log₁, h₁, -⟩ := sweep_resolution a scope true
    obtain ⟨log₂, h₂, -⟩ := sweep_resolution (a.sweep scope true) scope false
    have hs₁ := h₁.size_add
    have hs₂ := h₂.size_add
    unfold sweeps
    dsimp only
    split
    · exact ih (by omega)
    · have hsame₁ : (a.sweep scope true).pending.size = a.pending.size := by omega
      have hsame₂ : ((a.sweep scope true).sweep scope false).pending.size =
        (a.sweep scope true).pending.size := by omega
      obtain ⟨hasked₁, hwaits₁⟩ := sweep_stuck hsame₁
      obtain ⟨hasked₂, hwaits₂⟩ := sweep_stuck hsame₂
      intro p hp hm
      rw [hasked₂.isInside] at hm
      rw [hasked₂.pending] at hp
      refine hasked₂.waits.2 ?_
      -- Constants were tried by the first sweep, all others by the second.
      by_cases hk : p.kind = .equ
      · rw [hasked₁.pending] at hp
        rw [hasked₁.isInside] at hm
        exact hasked₁.waits.2 (hwaits₁ p hp (by simp [hk, hm]))
      · exact hwaits₂ p hp (by simp [hk, hm])

theorem Assembly.reportWaiting_setPending (a : Assembly) (q : Array Patch) (p : Patch) :
    reportWaiting { a with pending := q } p = { a.reportWaiting p with pending := q } := by
  unfold reportWaiting
  rw [evalAt_setPending]
  obtain ⟨fault | v | names, b⟩ := a.evalAt p.place p.expr <;> rfl

theorem taken_sublist {kept rest : List Patch} (hq : a.pending.toList = kept ++ p :: rest) :
    (kept ++ rest).Sublist a.pending.toList := by
  rw [hq]
  exact (Sublist.refl kept).append (sublist_cons_self p rest)

theorem mem_pending_of_taken {kept rest : List Patch} {q : Patch} (hq : a.pending.toList = kept ++ p :: rest)
    (hm : q ∈ (kept ++ rest).toArray) : q ∈ a.pending :=
  Array.mem_toList_iff.1 ((taken_sublist hq).subset (mem_toArray.1 hm))

end SpectrumAsm
