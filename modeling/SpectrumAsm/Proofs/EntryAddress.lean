/-
Which entry line sets the entry address.

An entry line whose expression has to wait sets its address at the end, in the round of the resolver that
first knows all its symbols. So the line that waited longest wins, and the last of these where several waited
equally long (`latest_concat`).
-/
import Mathlib.Logic.Function.Iterate
import SpectrumAsm.Proofs.EntryLines

namespace SpectrumAsm

open List Assembly Prod

variable {p : Patch} {start : Assembly} {s : Array Patch × Assembly}

/-! ## The latest of several -/

/-- The last of those with the greatest number. -/
def latest {α : Type} : List (Nat × α) → Option (Nat × α)
  | [] => none
  | f :: fs =>
    match latest fs with
    | none => some f
    | some g => if f.1 ≤ g.1 then some g else some f

section
variable {α β : Type}

theorem latest_cons (f : Nat × α) (fs : List (Nat × α)) : latest (f :: fs) =
    match latest fs with
    | none => some f
    | some g => if f.1 ≤ g.1 then some g else some f := rfl

theorem latest_mem {fs : List (Nat × α)} {f : Nat × α} (h : latest fs = some f) : f ∈ fs := by
  induction fs generalizing f with
  | nil => cases h
  | cons g fs ih =>
    rw [latest_cons] at h
    cases hl : latest fs with
    | none =>
      rw [hl] at h
      cases h
      exact mem_cons_self
    | some g' =>
      rw [hl] at h
      dsimp only at h
      split at h <;> cases h
      · exact mem_cons_of_mem _ (ih hl)
      · exact mem_cons_self

theorem latest_cons_of_le {f : Nat × α} {fs : List (Nat × α)} (h : ∀ g ∈ fs, f.1 ≤ g.1) :
    latest (f :: fs) = (latest fs).or (some f) := by
  rw [latest_cons]
  cases hl : latest fs with
  | none => rfl
  | some g => exact if_pos (h g (latest_mem hl))

/-- The last one is the latest just if its number is the greatest. -/
theorem latest_concat (fs : List (Nat × α)) (f : Nat × α) :
    (∀ g ∈ fs, g.1 ≤ f.1) ∧ latest (fs ++ [f]) = some f ∨ ∃ g ∈ fs, f.1 < g.1 ∧ latest (fs ++ [f]) = some g := by
  induction fs with
  | nil => exact .inl ⟨by simp, rfl⟩
  | cons g fs ih =>
    rw [cons_append, latest_cons]
    rcases ih with ⟨hle, h⟩ | ⟨g', hm, hlt, h⟩ <;> rw [h] <;> dsimp only
    · by_cases hg : g.1 ≤ f.1
      · exact .inl ⟨forall_mem_cons.2 ⟨hg, hle⟩, if_pos hg⟩
      · exact .inr ⟨g, mem_cons_self, Nat.lt_of_not_le hg, if_neg hg⟩
    · refine .inr ?_
      split
      · exact ⟨g', mem_cons_of_mem _ hm, hlt, rfl⟩
      · next hg => exact ⟨g, mem_cons_self, by omega, rfl⟩

/-- Some of `xs` are dealt with now, with the number `r`, and the others later. -/
theorem exists_latest {γ : Type} {T : γ → α ⊕ β → Prop} {R : β → Nat × α → Prop} {Q : γ → Nat × α → Prop}
    {xs : List γ} {made : List (α ⊕ β)} {later : List (Nat × α)} (r : Nat) (hmade : Forall₂ T xs made)
    (hlater : Forall₂ R (made.filterMap Sum.getRight?) later) (hr : ∀ f ∈ later, r < f.1)
    (hl : ∀ x w, T x (.inl w) → Q x (r, w)) (hR : ∀ x p f, T x (.inr p) → R p f → Q x f) :
    ∃ fs, Forall₂ Q xs fs ∧ (∀ f ∈ fs, r ≤ f.1) ∧
      latest fs = (latest later).or ((made.filterMap Sum.getLeft?).getLast?.map (r, ·)) := by
  induction hmade generalizing later with
  | nil =>
    cases hlater
    exact ⟨[], .nil, by simp, rfl⟩
  | @cons x m xs made hm _ ih =>
    cases m with
    | inl w =>
      obtain ⟨fs, hfs, hle, hlast⟩ := ih hlater hr
      refine ⟨(r, w) :: fs, .cons (hl x w hm) hfs, forall_mem_cons.2 ⟨Nat.le_refl r, hle⟩, ?_⟩
      have hleft : ((Sum.inl w :: made).filterMap Sum.getLeft?).getLast? =
          ((made.filterMap Sum.getLeft?).getLast?).or (some w) := by
        show (w :: made.filterMap Sum.getLeft?).getLast? = _
        rw [getLast?_cons]
        cases (made.filterMap Sum.getLeft?).getLast? <;> rfl
      rw [latest_cons_of_le hle, hlast, Option.or_assoc, hleft, Option.map_or]
      rfl
    | inr p =>
      have hright : (Sum.inr p :: made).filterMap Sum.getRight? = p :: made.filterMap (Sum.getRight? (α := α)) := rfl
      rw [hright] at hlater
      cases hlater with
      | @cons _ f _ later hp hlater =>
      obtain ⟨hf, hr⟩ := forall_mem_cons.1 hr
      obtain ⟨fs, hfs, hle, hlast⟩ := ih hlater hr
      refine ⟨f :: fs, .cons (hR x p f hm hp) hfs, forall_mem_cons.2 ⟨Nat.le_of_lt hf, hle⟩, ?_⟩
      have hleft : (Sum.inr p :: made).filterMap Sum.getLeft? = made.filterMap (Sum.getLeft? (β := β)) := rfl
      rw [hleft, latest_cons, latest_cons, hlast]
      cases latest later with
      | some g =>
        dsimp only [Option.or]
        split <;> rfl
      | none =>
        cases (made.filterMap Sum.getLeft?).getLast? with
        | none => rfl
        | some w => exact if_neg (Nat.not_le_of_lt hf)

end

/-! ## Rounds of the resolver -/

namespace Assembly

/-- A round: constants are tried, then everything else. -/
def round (a : Assembly) : Assembly := (a.sweep none true).sweep none false

/-- The state behind `n` rounds and the constants of one more. What is no constant is tried in it. -/
def informed (n : Nat) (a : Assembly) : Assembly := (round^[n] a).sweep none true

end Assembly

/-- An expression waits for `n` rounds, and its low word is known in the next. -/
def KnownAfter (walked : Assembly) (place : Place) (e : Expr) (n : Nat) (w : UInt16) : Prop :=
  (∀ m < n, e.Waits ((walked.informed m).symbols.env place)) ∧
    ∃ g v, ((e.evaluate ((walked.informed n).symbols.env place)).run.run g).1 = .ok (.ready v) ∧ v.lowWord = .ok w

/-- What becomes of a patch for an entry address in a round: it sets the address, or is left. -/
inductive Tried (a : Assembly) (p : Patch) : UInt16 ⊕ Patch → Prop where
  | sets {g : Random} {v : Value} {w : UInt16}
    (he : ((p.expr.evaluate (a.symbols.env p.place)).run.run g).1 = .ok (.ready v)) (hw : v.lowWord = .ok w) :
    Tried a p (.inl w)
  | stays (hw : p.Waits a) : Tried a p (.inr p)

variable {exported : Bool} {a b c : Assembly}

theorem Settles.env {o : Settlement} (h : Settles a p o b) (hk : p.kind ≠ .equ) (place : Place) :
    b.symbols.env place = a.symbols.env place := by
  cases h with
  | applied he ha =>
    have hasked := (Asked.ofEvalAt he).env place
    rcases applyPatch_cases ha with ⟨_, _, hequ, -, -⟩ | ⟨_, _, rfl, -⟩ | ⟨_, _, rfl, -⟩
    · exact absurd hequ hk
    · exact hasked
    · exact hasked
  | refused he _ | failed he => exact (Asked.ofEvalAt he).env place

theorem reported_of_resolution {P : List (Patch × Settlement) → Prop} (h : ∃ log, Resolution a log b ∧ P log) :
    Reported a b := by
  obtain ⟨log, h, -⟩ := h
  exact h.moves.reported

theorem Assembly.evaluate_of_evalAt {place : Place} {e : Expr} {v : Evaluated}
    (h : a.evalAt place e = (.ok v, b)) : ((e.evaluate (a.symbols.env place)).run.run a.random).1 = .ok v := by
  unfold evalAt at h
  rcases hrun : (e.evaluate (a.symbols.env place)).run.run a.random with ⟨fault | v', g⟩ <;> rw [hrun] at h <;> cases h
  rfl

theorem Settles.sets {o : Settlement} (h : Settles a p o b) (hk : p.kind = entryKind exported)
    (hd : b.diagnostics = a.diagnostics) : ∃ w, Tried a p (.inl w) ∧ b.entryOf exported = some w := by
  have hquiet : o.fault? = none := by
    have hsize := congrArg Array.size (h.diagnostics.symm.trans hd)
    cases hf : o.fault? with
    | none => rfl
    | some fault => simp [hf] at hsize
  cases h with
  | @applied _ _ v he ha =>
    obtain ⟨w, hw, hentry, -⟩ := applyPatch_entry ha hk
    exact ⟨w, .sets (evaluate_of_evalAt he) hw, hentry⟩
  | refused _ _ | failed _ => cases hquiet

theorem Tried.congr {made : UInt16 ⊕ Patch} (h : Tried a p made)
    (henv : ∀ place, a.symbols.env place = b.symbols.env place) : Tried b p made := by
  cases h with
  | sets he hw =>
    rw [henv] at he
    exact .sets he hw
  | stays hw =>
    unfold Patch.Waits at hw
    rw [henv] at hw
    exact .stays hw

/-- A part of a sweep through what is no constant, as the patches for an entry address see it. -/
structure EntriesTried (exported : Bool) (start : Assembly) (s : Array Patch × Assembly) (ps : List Patch)
    (made : List (UInt16 ⊕ Patch)) (s' : Array Patch × Assembly) : Prop where
  tried : Forall₂ (Tried start) (ps.filter (·.kind == entryKind exported)) made
  enters : Enters exported { s.2 with pending := s.1 } made { s'.2 with pending := s'.1 }
  env : ∀ place, s'.2.symbols.env place = s.2.symbols.env place

theorem EntriesTried.trans {s' s'' : Array Patch × Assembly} {ps qs : List Patch}
    {made more : List (UInt16 ⊕ Patch)} (h : EntriesTried exported start s ps made s')
    (h' : EntriesTried exported start s' qs more s'') :
    EntriesTried exported start s (ps ++ qs) (made ++ more) s'' where
  tried := by
    rw [filter_append]
    exact rel_append h.tried h'.tried
  enters := h.enters.trans h'.enters
  env place := (h'.env place).trans (h.env place)

theorem sweepStep_tried (henv : ∀ place, s.2.symbols.env place = start.symbols.env place)
    (p : Patch) (hd : (sweepStep none false s p).2.diagnostics = s.2.diagnostics) :
    ∃ made, EntriesTried exported start s [p] made (sweepStep none false s p) := by
  obtain ⟨kept, a⟩ := s
  have hasked := Asked.evalAt a p.place p.expr
  rw [sweepStep_eq] at hd ⊢
  by_cases hk : p.kind = entryKind exported
  · have hmeant : ((p.kind == .equ) == false && a.isInside none p) = true := by
      rw [hk]
      cases exported <;> rfl
    have hequ : p.kind ≠ .equ := by
      rw [hk]
      cases exported <;> decide
    rw [hmeant, if_pos rfl] at hd ⊢
    rcases tryPatch_cases a p with ⟨hw, ht⟩ | ⟨-, o, b, hs, ht⟩ <;> rw [ht] at hd ⊢
    · refine ⟨[.inr p], ?_, ⟨hasked.entryOf, by simp [entryQueue, hk]⟩, hasked.env⟩
      simpa [hk] using (Tried.stays hw).congr henv
    · obtain ⟨w, hsets, hentry⟩ := hs.sets hk hd
      refine ⟨[.inl w], ?_, ⟨hentry, by simp [entryQueue]⟩, hs.env hequ⟩
      simpa [hk] using hsets.congr henv
  · -- a patch of another kind leaves the queue, or is the last in it
    have hother {s : Array Patch × Assembly} (hkept : s.1 = kept ∨ s.1 = kept.push p)
        (hentry : s.2.entryOf exported = a.entryOf exported)
        (henv : ∀ place, s.2.symbols.env place = a.symbols.env place) :
        EntriesTried exported start (kept, a) [p] [] s := by
      refine ⟨by simp [hk], .kept hentry ?_, henv⟩
      rcases hkept with h | h <;> simp [entryQueue, h, hk]
    refine ⟨[], ?_⟩
    split
    · next hmeant =>
      rcases tryPatch_cases a p with ⟨-, ht⟩ | ⟨-, o, b, hs, ht⟩ <;> rw [ht]
      · exact hother (.inr rfl) hasked.entryOf hasked.env
      · exact hother (.inl rfl) (hs.entryOf hk) (hs.env fun hequ => by simp [hequ] at hmeant)
    · exact hother (.inr rfl) rfl fun _ => rfl

theorem foldl_sweepStep_tried (exported : Bool)
    (henv : ∀ place, s.2.symbols.env place = start.symbols.env place) (ps : List Patch)
    (hd : (ps.foldl (sweepStep none false) s).2.diagnostics = s.2.diagnostics) :
    ∃ made, EntriesTried exported start s ps made (ps.foldl (sweepStep none false) s) := by
  induction ps generalizing s with
  | nil => exact ⟨[], .nil, .kept rfl rfl, fun _ => rfl⟩
  | cons p ps ih =>
    have hone := reported_of_resolution (foldl_sweepStep_resolution none false [p] s.1 s.2)
    have hrest := reported_of_resolution (foldl_sweepStep_resolution none false ps (sweepStep none false s p).1
      (sweepStep none false s p).2)
    obtain ⟨hquiet, hquiet'⟩ := hone.between hrest hd
    obtain ⟨made, hstep⟩ := sweepStep_tried henv p hquiet
    obtain ⟨more, hmore⟩ := ih (fun place => (hstep.env place).trans (henv place)) hquiet'
    exact ⟨made ++ more, hstep.trans hmore⟩

theorem sweep_tried (hd : (a.sweep none false).diagnostics = a.diagnostics) :
    ∃ made, Forall₂ (Tried a) (a.entryQueue exported) made ∧
      Enters exported { a with pending := #[] } made (a.sweep none false) := by
  unfold sweep at hd ⊢
  dsimp only at hd ⊢
  rw [← Array.foldl_toList] at hd ⊢
  have henv (place : Place) :
      ({ a with pending := #[] } : Assembly).symbols.env place = a.symbols.env place := rfl
  obtain ⟨made, h⟩ := foldl_sweepStep_tried exported (s := (#[], { a with pending := #[] })) henv a.pending.toList hd
  exact ⟨made, h.tried, h.enters⟩

theorem round_tried (exported : Bool) (hd : a.round.diagnostics = a.diagnostics) :
    ∃ made, Forall₂ (Tried (a.sweep none true)) (a.entryQueue exported) made ∧
      a.round.entryQueue exported = made.filterMap Sum.getRight? ∧
      a.round.entryOf exported = (made.filterMap Sum.getLeft?).getLast?.or (a.entryOf exported) := by
  have hconstants : Enters exported a [] (a.sweep none true) := by
    obtain ⟨log, hr, hequ⟩ := sweep_resolution a none true
    refine hr.entries fun settled hm hk => ?_
    have hconstant := (hequ settled hm).1
    rw [hk] at hconstant
    cases exported <;> cases hconstant
  have hqueue : (a.sweep none true).entryQueue exported = a.entryQueue exported :=
    hconstants.queue.trans (append_nil _)
  have hentry : (a.sweep none true).entryOf exported = a.entryOf exported := hconstants.entry
  have hquiet := (reported_of_resolution (sweep_resolution a none true)).between
    (reported_of_resolution (sweep_resolution _ none false)) hd
  obtain ⟨made, hmade, henters⟩ := sweep_tried hquiet.2
  rw [← hqueue, ← hentry]
  exact ⟨made, hmade, henters.queue, henters.entry⟩

/-- A patch for an entry address sets it in some round. -/
def PatchFate (walked : Assembly) (p : Patch) (fate : Nat × UInt16) : Prop :=
  ∃ n, fate.1 = n + 1 ∧ KnownAfter walked p.place p.expr n fate.2

/-- What the rounds behind `k` others make of the patches for an entry address that are left. -/
theorem sweeps_latest (exported : Bool) {walked : Assembly} (n k : Nat)
    (hbefore : ∀ p ∈ (Assembly.round^[k] walked).entryQueue exported, ∀ m < k, p.Waits (walked.informed m))
    (hd : (sweeps none n (Assembly.round^[k] walked)).diagnostics = (Assembly.round^[k] walked).diagnostics)
    (hdone : (sweeps none n (Assembly.round^[k] walked)).entryQueue exported = []) :
    ∃ fates, Forall₂ (PatchFate walked) ((Assembly.round^[k] walked).entryQueue exported) fates ∧
      (∀ f ∈ fates, k < f.1) ∧ (sweeps none n (Assembly.round^[k] walked)).entryOf exported =
        ((latest fates).map snd).or ((Assembly.round^[k] walked).entryOf exported) := by
  induction n generalizing k with
  | zero =>
    have hempty : (Assembly.round^[k] walked).entryQueue exported = [] := hdone
    rw [hempty]
    exact ⟨[], .nil, by simp, rfl⟩
  | succ n ih =>
    obtain ⟨a, ha⟩ : ∃ a, a = Assembly.round^[k] walked := ⟨_, rfl⟩
    have hround : Assembly.round^[k + 1] walked = a.round := by rw [Function.iterate_succ_apply', ha]
    have hinformed : walked.informed k = a.sweep none true := by rw [ha]; rfl
    have ih := ih (k + 1)
    rw [hround] at ih
    rw [← ha] at hbefore hd hdone ⊢
    have hsweeps : sweeps none (n + 1) a =
        if a.round.pending.size < a.pending.size then sweeps none n a.round else a.round := rfl
    have hrest : Reported a.round (sweeps none (n + 1) a) := by
      rw [hsweeps]
      split
      · exact reported_of_resolution (sweeps_resolution none n _)
      · exact .ofEq rfl
    obtain ⟨hquiet, hquiet'⟩ := ((reported_of_resolution (sweep_resolution a none true)).trans
      (reported_of_resolution (sweep_resolution _ none false))).between hrest hd
    obtain ⟨made, hmade, hqueue, hentry⟩ := round_tried exported hquiet
    have hmade := (forall₂_and_left _ _).2 ⟨hbefore, hmade⟩
    have hleft : ∀ p ∈ a.round.entryQueue exported, ∀ m < k + 1, p.Waits (walked.informed m) := by
      intro p hp m hm
      obtain ⟨out, hout, hright⟩ := mem_filterMap.1 (hqueue ▸ hp)
      rw [Sum.getRight?_eq_some_iff.1 hright] at hout
      obtain ⟨_, -, hwaits, htried⟩ := exists_of_mem_left hmade.flip hout
      cases htried with
      | stays hw =>
        rcases Nat.lt_succ_iff_lt_or_eq.1 hm with hm | rfl
        · exact hwaits m hm
        · rwa [hinformed]
    -- the rounds behind this one
    obtain ⟨later, hlater, hlt, hlast⟩ : ∃ later, Forall₂ (PatchFate walked) (a.round.entryQueue exported) later ∧
        (∀ f ∈ later, k + 1 < f.1) ∧ (sweeps none (n + 1) a).entryOf exported =
          ((latest later).map snd).or (a.round.entryOf exported) := by
      rw [hsweeps] at hquiet' hdone ⊢
      split at hquiet'
      · next hless =>
        rw [if_pos hless] at hdone ⊢
        exact ih hleft hquiet' hdone
      · next hless =>
        rw [if_neg hless] at hdone ⊢
        rw [hdone]
        exact ⟨[], .nil, by simp, rfl⟩
    rw [hqueue] at hlater
    obtain ⟨fates, hfates, hle, hlatest⟩ := exists_latest (Q := PatchFate walked) (k + 1) hmade hlater hlt
      (fun p w ⟨hwaits, htried⟩ => by
        cases htried with
        | sets he hw =>
          rw [← hinformed] at he
          exact ⟨k, rfl, hwaits, _, _, he, hw⟩)
      (fun p q f ⟨_, htried⟩ hf => by
        cases htried with
        | stays _ => exact hf)
    refine ⟨fates, hfates, fun f hf => Nat.lt_of_succ_le (hle f hf), ?_⟩
    rw [hlast, hentry, hlatest, Option.map_or, Option.map_map, Option.or_assoc]
    have hsnd : (snd ∘ fun w : UInt16 => (k + 1, w)) = id := rfl
    rw [hsnd, Option.map_id_fun, id]

/-! ## The entry address -/

/-- When an entry line sets the address, and to what: when it is reached, or in a later round. -/
inductive EntryFate (walked : Assembly) : Expr × Assembly → Nat × UInt16 → Prop where
  | now {e : Expr} {s : Assembly} {v : Value} {w : UInt16} (he : (s.evalAt s.place e).1 = .ok (.ready v))
    (hw : v.lowWord = .ok w) : EntryFate walked (e, s) (0, w)
  | later {e : Expr} {s : Assembly} {n : Nat} {w : UInt16} (hwaits : s.Awaits e)
    (h : KnownAfter walked s.place e n w) : EntryFate walked (e, s) (n + 1, w)

/-- The lines of a program walked, its last label bound. -/
def walkedLines (setup : Setup) (lines : List SourceLine) : Assembly :=
  ((walkProgram lines).run (.new setup)).2.flushLabel

theorem EntryFate.ofMade {walked : Assembly} {entry : Expr × Assembly} {fate : Nat × UInt16}
    (h : EntryMade exported entry (.inr p)) (hf : PatchFate walked p fate) : EntryFate walked entry fate := by
  obtain ⟨n, hn, hknown⟩ := hf
  obtain ⟨round, w⟩ := fate
  cases hn
  cases h with
  | later hwaits _ hexpr hplace _ =>
    rw [hexpr, hplace] at hknown
    exact .later hwaits hknown

theorem quiet_of_resolveAll {setup : Setup} (hb : Proceeds (.new setup) b)
    (hd : b.flushLabel.resolveAll.diagnostics = #[]) :
    let swept := sweeps none b.flushLabel.pending.size b.flushLabel
    b.diagnostics = (new setup).diagnostics ∧ swept.diagnostics = b.flushLabel.diagnostics ∧
      swept.pending = #[] := by
  rw [diagnostics_resolveAll] at hd
  obtain ⟨hswept, hleft⟩ := Array.append_eq_empty_iff.1 hd
  have hsweeps := reported_of_resolution (sweeps_resolution none b.flushLabel.pending.size b.flushLabel)
  have hflush := (flushLabel_calm b).moves.reported
  have hwalk := (hb ⟨setup, .refl⟩).reported
  obtain ⟨hquiet, hquiet'⟩ := (hwalk.trans hflush).between hsweeps hswept
  exact ⟨(hwalk.between hflush hquiet).1, hquiet', Array.map_eq_empty_iff.1 hleft⟩

/-- What a walk from the start and the resolver behind it make of an entry address. -/
theorem Walks.entry_latest {setup : Setup} {call : Call} {t : Tally} (h : Walks call (.new setup) t b)
    (hd : b.flushLabel.resolveAll.diagnostics = #[]) (exported : Bool) :
    ∃ fates, Forall₂ (EntryFate b.flushLabel) (t.entryLines exported) fates ∧
      b.flushLabel.resolveAll.entryOf exported = (latest fates).map snd := by
  obtain ⟨hwalk, hrounds, hdone⟩ := quiet_of_resolveAll h.proceeds hd
  have hfree : (new setup).EntriesFree exported := by
    intro p hp
    cases hp
  obtain ⟨made, hmade, henters⟩ := h.enters ⟨setup, .refl⟩ hfree hwalk
  have hlabel := EntryKept.upkeep.housekeeping.flushLabel b (henters.entriesFree hmade hfree)
  have hqueue : b.flushLabel.entryQueue exported = made.filterMap Sum.getRight? := by
    rw [hlabel.queue, henters.queue]
    exact append_nil _
  have hentry : b.flushLabel.entryOf exported = (made.filterMap Sum.getLeft?).getLast? := by
    have hnone : (new setup).entryOf exported = none := by cases exported <;> rfl
    rw [hlabel.entry, henters.entry, hnone, Option.or_none]
    rfl
  have hempty : (sweeps none b.flushLabel.pending.size b.flushLabel).entryQueue exported = [] := by
    unfold entryQueue
    rw [hdone]
    rfl
  obtain ⟨later, hlater, hlt, hlast⟩ := sweeps_latest exported b.flushLabel.pending.size 0 (by simp) hrounds hempty
  change Forall₂ _ (b.flushLabel.entryQueue exported) later at hlater
  change (sweeps none b.flushLabel.pending.size b.flushLabel).entryOf exported =
    ((latest later).map snd).or (b.flushLabel.entryOf exported) at hlast
  rw [hqueue] at hlater
  obtain ⟨fates, hfates, -, hlatest⟩ := exists_latest (Q := EntryFate b.flushLabel) 0 hmade hlater hlt
    (fun entry w hm => by
      cases hm with
      | now he hw => exact .now he hw)
    (fun _ _ _ hm hf => .ofMade hm hf)
  refine ⟨fates, hfates, ?_⟩
  have hresolved : b.flushLabel.resolveAll.entryOf exported =
      (sweeps none b.flushLabel.pending.size b.flushLabel).entryOf exported := by
    unfold entryOf
    rw [(resolveAll_noted b.flushLabel).entry, (resolveAll_noted b.flushLabel).exportEntry]
  have hsnd : (snd ∘ fun w : UInt16 => (0, w)) = id := rfl
  rw [hresolved, hlast, hentry, hlatest, Option.map_or, Option.map_map, hsnd, Option.map_id_fun, id]

/-- Where the entry address comes from. In a program without errors every entry line that is reached sets the
address once, and the address at the end is that of the line which did so last: the last line if no line before it
had to wait for a later round, and otherwise one of those. -/
theorem entry_address_latest {setup : Setup} {lines : List SourceLine}
    (hd : ((assembleLines lines).run (.new setup)).2.diagnostics = #[]) (exported : Bool) :
    ∃ t fates, Walks (.lines lines) (.new setup) t ((walkProgram lines).run (.new setup)).2 ∧
      Forall₂ (EntryFate (walkedLines setup lines)) (t.entryLines exported) fates ∧
      ((assembleLines lines).run (.new setup)).2.entryOf exported = (latest fates).map snd ∧
      ∀ earlier last, fates = earlier ++ [last] → (∀ fate ∈ earlier, fate.1 ≤ last.1) ∧
            ((assembleLines lines).run (.new setup)).2.entryOf exported = some last.2 ∨
          ∃ fate ∈ earlier, last.1 < fate.1 ∧
            ((assembleLines lines).run (.new setup)).2.entryOf exported = some fate.2 := by
  obtain ⟨t, ht⟩ := walkProgram_walks setup lines
  obtain ⟨fates, hfates, hentry⟩ := ht.entry_latest hd exported
  change ((assembleLines lines).run (.new setup)).2.entryOf exported = (latest fates).map snd at hentry
  refine ⟨t, fates, ht, hfates, hentry, ?_⟩
  rintro earlier last rfl
  rw [hentry]
  rcases latest_concat earlier last with ⟨hle, hl⟩ | ⟨fate, hm, hlt, hl⟩ <;> rw [hl]
  · exact .inl ⟨hle, rfl⟩
  · exact .inr ⟨fate, hm, hlt, rfl⟩

/-- An entry line that has to wait for the label of the last line, and one that does not. -/
def waitingEntryFirst : List SourceLine := [⟨⟨0, 0⟩, none, some (.pragma (.ent (.symbol ⟨["LATER"], false⟩))), none⟩,
    ⟨⟨0, 1⟩, none, some (.pragma (.ent (.int 5))), none⟩,
    ⟨⟨0, 2⟩, some "Later", some (.op .nop []), none⟩]

/-- The first line wins: it is known after the walk, when the second one has set the address. -/
theorem entry_address_latest_waiting :
    let final := ((assembleLines waitingEntryFirst).run (.new {})).2
    final.diagnostics = #[] ∧ final.entryOf false = some 0x8000 ∧
      ∃ t fates, Walks (.lines waitingEntryFirst) (.new {}) t ((walkProgram waitingEntryFirst).run (.new {})).2 ∧
        Forall₂ (EntryFate (walkedLines {} waitingEntryFirst)) (t.entryLines false) fates ∧
        (latest fates).map snd = some 0x8000 := by
  have hquiet : ((assembleLines waitingEntryFirst).run (.new {})).2.diagnostics = #[] :=
    Array.isEmpty_iff.1 (by decide +kernel)
  have hentry : ((assembleLines waitingEntryFirst).run (.new {})).2.entryOf false = some 0x8000 := by
    decide +kernel
  obtain ⟨t, fates, ht, hfates, hlatest, -⟩ := entry_address_latest hquiet false
  exact ⟨hquiet, hentry, t, fates, ht, hfates, hlatest.symm.trans hentry⟩

end SpectrumAsm
