/-
When a patch gets its value, and which one.

Resolving patches only adds values, so it does not matter in which order they are tried: a patch is settled
exactly if all its names have values in the end (`Resolution.settledWith`). It stays in the queue as long as no
scope around it ends (`Stage.taken`), or one of its names has no value (`History.waits`). Scopes that were closed
stay as they are (`Sealed`).
-/
import SpectrumAsm.Proofs.Targets

namespace SpectrumAsm

open List SymbolTable Assembly

variable {a b c walked d : Assembly} {es after fs : List Event} {p : Patch} {id low : Nat}
  {t : SymbolTable} {scope : Option Nat} {log : List (Patch × Settlement)} {xs : List Extent}

/-! ## States of a history -/

theorem Assembly.Orderly.new (setup : Setup) : (Assembly.new setup).Orderly := by
  refine ⟨.new _, fun p hp => absurd hp (Array.not_mem_empty p), fun p hp => ?_, .nil⟩
  cases hp

theorem History.overrun (h : History a es b) (ho : b.overrun = false) : a.overrun = false := h.course.overrun ho

theorem History.invariant {P : Assembly → Prop}
    (hP : ∀ {a b : Assembly} {es : List Event}, Stage a es b → Arises a → P a → P b)
    (h : History a es b) (ha : Arises a) (hpa : P a) : P b := by
  induction h with
  | refl a => exact hpa
  | head h _ ih => exact ih (ha.course h.course) (hP h ha hpa)

theorem History.orderly (h : History a es b) (ha : Arises a) (horder : a.Orderly) : b.Orderly :=
  h.invariant (fun hs ha horder => horder.stage hs ha) ha horder

/-! ## Closed scopes -/

/-- The scopes numbered from `low` up to but not including `high` are closed: none is open in `u`, and they
have the symbols they have in `t`, at most with values for those that had none. What was noted down about a
scope below `high` is the same. -/
structure Sealed (low high : Nat) (t u : SymbolTable) : Prop where
  active : ∀ id ∈ u.active, id < low ∨ high ≤ id
  scopes : high ≤ u.nextScope
  frames : ∀ id < high, u.scopes[id]?.map Scope.frame = t.scopes[id]?.map Scope.frame
  symbols : ∀ id, low ≤ id → id < high → ∀ key,
    Gains ((t.symbolsAt (.scope id)).get? key) ((u.symbolsAt (.scope id)).get? key)

namespace Sealed

variable {high : Nat} {u v : SymbolTable}

theorem refl (h : ∀ id ∈ t.active, id < low) : Sealed low t.nextScope t t :=
  ⟨fun id hid => .inl (h id hid), Nat.le_refl _, fun _ _ => rfl, fun _ _ _ _ => .inl rfl⟩

theorem same (h : Sealed low high t u) (hactive : ∀ id ∈ v.active, id ∈ u.active ∨ high ≤ id)
    (hscopes : u.nextScope ≤ v.nextScope)
    (hframes : ∀ id < high, v.scopes[id]?.map Scope.frame = u.scopes[id]?.map Scope.frame)
    (hsymbols : ∀ id, id ∉ u.active → id < high → v.symbolsAt (.scope id) = u.symbolsAt (.scope id)) :
    Sealed low high t v := by
  refine ⟨fun id hid => ?_, Nat.le_trans h.scopes hscopes, fun id hid => ?_, fun id hlow hhigh key => ?_⟩
  · rcases hactive id hid with hid | hid
    · exact h.active id hid
    · exact .inr hid
  · rw [hframes id hid, h.frames id hid]
  · have hclosed : id ∉ u.active := fun hid => by
      have := h.active id hid
      omega
    rw [hsymbols id hclosed hhigh]
    exact h.symbols id hlow hhigh key

theorem fills (h : Sealed low high t u) (hv : u.Fills v) : Sealed low high t v :=
  ⟨fun id hid => h.active id (hv.active ▸ hid), hv.nextScope.symm ▸ h.scopes,
    fun id hid => (hv.frame id).trans (h.frames id hid),
    fun id hlow hhigh key => (h.symbols id hlow hhigh key).trans (hv.symbols _ key)⟩

/-- A closed scope is not opened again, and only gains values. -/
theorem stage (h : Sealed low high t a.symbols) (hs : Stage a es b) (ha : a.Orderly) : Sealed low high t b.symbols := by
  cases hs with
  | turn ht =>
    have htable := ht.table
    refine h.same (fun id hid => .inl (htable.active ▸ hid)) (Nat.le_of_eq htable.nextScope.symm)
      (fun id _ => ?_) fun id hid _ => htable.closed _ ?_
    · rw [← Array.getElem?_map, ← Array.getElem?_map, htable.frames]
    · simpa [varSlots] using hid
  | opens kind pass =>
    refine h.same (fun id hid => ?_) ?_ (fun id hid => ?_) fun id _ _ =>
      symbolsAt_enterScope a kind pass _
    · rcases mem_cons.1 hid with rfl | hid
      · exact .inr h.scopes
      · exact .inl hid
    · rw [nextScope_enterScope]
      exact Nat.le_succ _
    · rw [scopes_enterScope a kind pass (Nat.lt_of_lt_of_le hid h.scopes)]
  | @ends id _ =>
    obtain ⟨log, hr, -⟩ := sweeps_resolution (some id) a.pending.size a
    obtain ⟨hfills, -⟩ := ha.aimed.resolution hr
    exact h.fills hfills
  | closes htop =>
    refine h.same (fun id hid => .inl ?_) (Nat.le_of_eq (a.symbols.nextScope_closeScope _).symm)
      (fun id _ => ?_) fun id hid _ => symbolsAt_closeScope fun top ht he => ?_
    · exact mem_of_mem_tail (a.symbols.active_closeScope _ ▸ hid)
    · rw [← Array.getElem?_map, ← Array.getElem?_map]
      exact congrArg (·[id]?) (a.symbols.frame_closeScope _)
    · cases he
      exact hid (mem_of_mem_head? ht)
  | @enters name u he =>
    have hscopes := scopes_enterModule he
    refine h.same (fun id hid => .inl ?_) (Nat.le_of_eq (nextScope_enterModule he).symm)
      (fun id _ => by rw [hscopes]) fun id _ _ => symbolsAt_enterModule he _
    exact active_enterModule he ▸ hid
  | leaves =>
    obtain ⟨_, hleft⟩ := a.symbols.leaveModule_eq
    rw [hleft]
    exact h.same (fun id hid => .inl hid) (Nat.le_refl _) (fun id _ => rfl) fun _ _ _ => rfl
  | deepens depth => exact h

theorem history (h : Sealed low high t a.symbols) (hh : History a es b) (ha : Arises a)
    (horder : a.Orderly) : Sealed low high t b.symbols :=
  (hh.invariant (P := fun a => Sealed low high t a.symbols ∧ a.Orderly)
    (fun hs ha hP => ⟨hP.1.stage hs hP.2, hP.2.stage hs ha⟩) ha ⟨h, horder⟩).1

end Sealed

/-! ## Names found in closed scopes -/

/-- The symbol of a name among the scopes around a scope, as far as they are numbered from `low` on. -/
def SymbolTable.lookupWithin (t : SymbolTable) (low : Nat) (scope : Option Nat) (name : String) : Option Symbol :=
  ((t.chain scope).takeWhile (low ≤ ·)).findSome? fun id => (t.symbolsAt (.scope id)).get? name

theorem SymbolTable.lookup_of_within {ref : SymbolRef} {s : Symbol} (hr : ref.rooted = false)
    (h : t.lookupWithin low scope ref.joined = some s) (module : Nat) : t.lookup ref scope module = some s := by
  have hscopes : t.lookupScopes scope ref.joined = some s := by
    rw [lookupScopes_eq, ← takeWhile_append_dropWhile (p := (low ≤ ·)) (l := t.chain scope), findSome?_append]
    unfold lookupWithin at h
    rw [h]
    rfl
  unfold lookup
  rw [hr, hscopes]
  rfl

theorem SymbolTable.lookupWithin_succ (hp : ∀ id parent, t.parent? id = some parent → parent < id)
    (h : t.encloses scope low = true) (name : String) : t.lookupWithin low scope name =
      (t.lookupWithin (low + 1) scope name).or ((t.symbolsAt (.scope low)).get? name) := by
  unfold lookupWithin
  rw [takeWhile_descending (chain_descending hp scope) (contains_iff_mem.1 h), findSome?_append,
    findSome?_singleton]

namespace Sealed

variable {high : Nat} {u : SymbolTable}

section
variable (h : Sealed low high t u) (hp : ∀ id parent, t.parent? id = some parent → parent < id)
  {scope : Option Nat} (hs : ∀ id, scope = some id → id < high)
include h hp hs

theorem chain : u.chain scope = t.chain scope := by
  refine chain_eq fun j hj => ?_
  rw [parent?_frame, parent?_frame, h.frames j (lt_of_mem_chain hp hs j hj)]

theorem within (name : String) : Gains (t.lookupWithin low scope name) (u.lookupWithin low scope name) := by
  unfold lookupWithin
  rw [h.chain hp hs]
  refine findSome?_related (fun _ _ hg => hg.found) (.inl rfl) fun id hid => ?_
  refine h.symbols id ?_ (lt_of_mem_chain hp hs id ((takeWhile_sublist _).subset hid)) name
  simpa using all_eq_true.1 all_takeWhile id hid

theorem loopCounter? : u.loopCounter? scope = t.loopCounter? scope :=
  loopCounter?_eq fun j hj => h.frames j (lt_of_mem_chain hp hs j hj)

end

end Sealed

/-! ## What a patch comes to -/

/-- What a patch can come to with the symbols of a state: bytes, or a fault. Which of several depends on
random numbers only. -/
inductive Patch.ComesTo (p : Patch) (a : Assembly) : Except Fault (List UInt8) → Prop where
  | value {g g' : Random} {v : Value}
    (h : (p.expr.evaluate (a.symbols.env p.place)).run.run g = (.ok (.ready v), g')) :
    ComesTo p a (p.encode a v)
  | fault {g g' : Random} {cause : ExprFault}
    (h : (p.expr.evaluate (a.symbols.env p.place)).run.run g = (.error cause, g')) :
    ComesTo p a (.error (.ofExpr cause))

/-- A patch has been settled with the symbols of `s`: all its names have values there, and its bytes stand in
its place, or its fault is reported for its line. -/
def Patch.SettledWith (p : Patch) (s b : Assembly) : Prop := p.unresolved s = [] ∧ ((∃ bytes, p.ComesTo s (.ok bytes) ∧
        ∀ j < p.kind.span, b.byteAt p.segment (p.extent.start + j) = bytes[j]?) ∨
      ∃ fault, p.ComesTo s (.error fault) ∧ s.setup.diagnostic fault p.pos ∈ b.diagnostics)

theorem Resolution.encode (h : Resolution a log b) (p : Patch) (v : Value) : p.encode b v = p.encode a v := by
  have hencode : Settling (Unchanged (p.encode · v)) :=
    { asked := fun hasked => p.encode_congr hasked.segments v
      reportAt := fun _ _ _ => rfl
      assign := fun _ _ _ _ => rfl
      setEntries := fun _ _ _ => rfl
      patchBytes := fun a segment offset bytes => p.encode_patchBytes a segment offset bytes v
      setPending := fun _ _ => rfl }
  exact hencode.resolution h

theorem Patch.ComesTo.fills {r : Except Fault (List UInt8)} (h : p.ComesTo a r) (hknown : p.unresolved a = [])
    (hfills : a.symbols.Fills b.symbols) (hencode : ∀ v, p.encode b v = p.encode a v) : p.ComesTo b r := by
  have henv : p.expr.evaluate (b.symbols.env p.place) = p.expr.evaluate (a.symbols.env p.place) := by
    refine Expr.evaluate_agrees (P := fun _ => True) (fun _ _ _ => trivial) (fun _ => rfl)
      (fun _ => hfills.counter p.place) trivial fun ref hr => ?_
    have hsome := filter_eq_nil_iff.1 hknown ref hr
    obtain ⟨v, hv⟩ := Option.ne_none_iff_exists'.1 (by simpa using hsome)
    rw [hv, hfills.symbol hv]
  cases h with
  | value h =>
    rw [← hencode]
    exact .value (henv ▸ h)
  | fault h => exact .fault (henv ▸ h)

theorem Settles.comesTo {o : Settlement} (h : Settles a p o b) (hfill : p.Fillable a) :
    (∃ bytes, p.ComesTo a (.ok bytes) ∧ ∀ j < p.kind.span, b.byteAt p.segment (p.extent.start + j) = bytes[j]?) ∨
      ∃ fault, p.ComesTo a (.error fault) ∧ a.setup.diagnostic fault p.pos ∈ b.diagnostics := by
  have hreported {c : Assembly} (hc : Asked a c) (fault : Fault) :
      a.setup.diagnostic fault p.pos ∈ (c.reportAt fault p.pos).diagnostics := by
    rw [← (Noted.ofAsked hc).setup]
    exact Array.mem_push_self
  have hrun {c : Assembly} {r : Except Fault Evaluated} (he : a.evalAt p.place p.expr = (r, c)) :
      ∃ x g', (p.expr.evaluate (a.symbols.env p.place)).run.run a.random = (x, g') ∧ x.mapError .ofExpr = r :=
    ⟨_, _, rfl, congrArg Prod.fst he⟩
  cases h with
  | applied he ha =>
    rcases hrun he with ⟨_ | _, g', hg, hx⟩ <;> cases hx
    obtain ⟨bytes, hbytes, hat⟩ := hfill.applied he ha
    exact .inl ⟨bytes, hbytes ▸ .value hg, hat⟩
  | @refused c v fault he ha =>
    rcases hrun he with ⟨_ | _, g', hg, hx⟩ <;> cases hx
    have hsegments := (Asked.ofEvalAt he).segments
    rw [(hfill.congr hsegments).applyPatch, p.encode_congr hsegments] at ha
    have hbytes : p.encode a v = .error fault := by
      cases hb : p.encode a v with
      | ok bytes => rw [hb] at ha; cases ha
      | error _ => rw [hb] at ha; cases ha; rfl
    exact .inr ⟨fault, hbytes ▸ .value hg, hreported (.ofEvalAt he) fault⟩
  | @failed c fault he =>
    refine .inr ⟨fault, ?_, hreported (.ofEvalAt he) fault⟩
    rcases hrun he with ⟨_ | _, g', hg, hx⟩ <;> cases hx
    exact .fault hg

/-- A patch that leaves the queue while patches are resolved is settled with the symbols there are in
the end. -/
theorem Resolution.settledWith (h : Resolution a log b) (hlater : Course b xs c) (ha : Arises a)
    (ho : c.overrun = false) (horder : a.Orderly) (hp : p ∈ a.pending) (hpos : 0 < p.kind.span)
    (hgone : p ∉ b.pending) (hx : ∀ x ∈ xs, x.Apart p.extent) : p.SettledWith b c := by
  induction h with
  | refl a => exact absurd hp hgone
  | @wait a b log q hq hw rest ih =>
    have hasked : Resolution a [] (a.evalAt q.place q.expr).2 := .wait hq hw (.refl _)
    exact ih hlater (ha.course hasked.course) (horder.resolution hasked)
      ((Asked.evalAt a q.place q.expr).pending ▸ hp) hgone
  | @settle a b d log kept rest q o hq hs hrest ih =>
    have haction : Action a [] { b with pending := (kept ++ rest).toArray } := .settle hq hs
    have hnext := ha.course (.single haction)
    have hall := hrest.course.trans hlater
    have hob := hall.overrun ho
    by_cases hstill : p ∈ (kept ++ rest).toArray
    · exact ih hlater hnext (horder.resolution (.settle hq hs (.refl _))) hstill hgone
    obtain rfl : q = p := by
      rw [mem_toArray, mem_append, not_or] at hstill
      rw [← Array.mem_toList_iff, hq, mem_append, mem_cons] at hp
      rcases hp with hp | hp | hp
      · exact absurd hp hstill.1
      · exact hp.symm
      · exact absurd hp hstill.2
    have hplace := ha.inPlace (haction.move.overrun hob)
    have hknown : q.unresolved a = [] := by
      have hnow := hs.not_waits
      rw [Patch.waits_iff (ha.reachable.queuePlain q hp).1] at hnow
      exact Classical.not_not.1 hnow
    have hwhole : Resolution a _ d := .settle hq hs hrest
    obtain ⟨hfills, -⟩ := horder.aimed.resolution hwhole
    refine ⟨Patch.unresolved_learned hwhole.learned hknown, ?_⟩
    have hcomes {r : Except Fault (List UInt8)} (hr : q.ComesTo a r) : q.ComesTo d r :=
      hr.fills hknown hfills (hwhole.encode q)
    rcases hs.comesTo ⟨hpos, hplace.inside q hp⟩ with ⟨bytes, hbytes, hfill⟩ | ⟨fault, hfault, hm⟩
    · refine .inl ⟨bytes, hcomes hbytes, fun j hj => ?_⟩
      have hcov : q.extent.Covers q.segment (q.extent.start + j) :=
        ⟨rfl, Nat.le_add_right _ _, Nat.add_lt_add_left hj _⟩
      have hdone := haction.done_of_taken ha hob hp hstill nofun hcov
      rw [(hall.settled hnext ho hdone fun x hm hxc => hx x (by simpa using hm) _ _ hxc hcov).2]
      exact hfill j hj
    · refine .inr ⟨fault, hcomes hfault, ?_⟩
      obtain ⟨more, hmore⟩ := hall.moves.reported
      rw [hmore, hwhole.setup]
      exact Array.mem_append_left _ hm

/-! ## Sweeps -/

theorem sweeps_keeps (scope : Option Nat) {n : Nat} (hp : p ∈ a.pending)
    (hout : a.isInside scope p = false) : p ∈ (sweeps scope n a).pending := by
  obtain ⟨log, hr, hinside⟩ := sweeps_resolution scope n a
  rcases mem_append.1 (hr.perm.mem_iff.2 (Array.mem_toList_iff.2 hp)) with hp | hp
  · obtain ⟨entry, hentry, rfl⟩ := mem_map.1 hp
    rw [hinside entry hentry] at hout
    cases hout
  · exact Array.mem_toList_iff.1 hp

/-! ## The way of a patch through a program -/

/-- No override has anything to do with a patch. -/
def Patch.Spared (p : Patch) (xs : List Extent) : Prop :=
  ∀ x ∈ xs, x.Apart p.extent ∧ p.touches x.segment x.start x.stop = false

/-- A patch leaves the queue because of an override, or where a scope ends that it was made in. -/
theorem Stage.taken (h : Stage a es b) (hp : p ∈ a.pending) (hgone : p ∉ b.pending) (hx : p.Spared (rewritten es)) :
    ∃ id, es = [.ends id] ∧ a.symbols.top? = some id ∧ a.symbols.encloses p.scope id = true ∧
      b = a.resolveScope id := by
  cases h with
  | turn h =>
    rw [rewritten_map] at hx
    rcases h.queue p hp with hm | ⟨x, hm, ht⟩
    · exact absurd hm hgone
    · rw [(hx x hm).2] at ht
      cases ht
  | @ends id htop =>
    refine ⟨id, rfl, htop, ?_, rfl⟩
    cases hin : a.symbols.encloses p.scope id with
    | true => rfl
    | false => exact absurd (sweeps_keeps (some id) hp hin) hgone
  | _ => exact absurd hp hgone

/-- What becomes of a patch that waits in `a`, when the walk goes on with the events `after`: it is settled
where a scope ends that it was made in, with the symbols once the body of the scope has been walked; or at the
end of the program, with the symbols then, or reported as missing some. -/
inductive Patch.Fate (p : Patch) (a : Assembly) (after : List Event) (walked : Assembly) : Prop where
  | scope {c : Assembly} {id : Nat} {between rest : List Event} (before : History a between c)
    (waits : p ∈ c.pending) (top : c.symbols.top? = some id)
    (inside : c.symbols.encloses p.scope id = true) (later : History (c.resolveScope id) rest walked)
    (events : after = between ++ .ends id :: rest) (same : c.symbols.Fills (c.resolveScope id).symbols)
    (settled : p.SettledWith (c.resolveScope id) walked.resolveAll)
  | program (waits : p ∈ walked.pending)
    (same : walked.symbols.Fills (sweeps none walked.pending.size walked).symbols)
    (settled : p.SettledWith (sweeps none walked.pending.size walked) walked.resolveAll)
  | never (waits : p ∈ walked.pending)
    (blank : p.unresolved (sweeps none walked.pending.size walked) ≠ [])
    (reported : walked.setup.diagnostic
      (.waiting (p.missing (sweeps none walked.pending.size walked))) p.pos ∈
        walked.resolveAll.diagnostics)

theorem Patch.Fate.head (h : p.Fate b fs walked) (hs : Stage a es b) : p.Fate a (es ++ fs) walked := by
  cases h with
  | scope before waits top inside later events same settled =>
    refine .scope (.head hs before) waits top inside later ?_ same settled
    rw [events, append_assoc]
  | program waits same settled => exact .program waits same settled
  | never waits blank reported => exact .never waits blank reported

theorem Patch.fate_of_walked (ha : Arises walked) (horder : walked.Orderly) (ho : walked.resolveAll.overrun = false)
    (hp : p ∈ walked.pending) (hpos : 0 < p.kind.span) : p.Fate walked [] walked := by
  obtain ⟨log, hr, -⟩ := sweeps_resolution none walked.pending.size walked
  obtain ⟨hfills, -⟩ := horder.aimed.resolution hr
  by_cases hgone : p ∈ (sweeps none walked.pending.size walked).pending
  · have hplain := (ha.reachable.queuePlain p hp).1
    refine .never hp ((Patch.waits_iff hplain).1 (waits_of_sweeps walked p hgone)) ?_
    rw [diagnostics_resolveAll, hr.setup]
    exact Array.mem_append_right _ (Array.mem_map.2 ⟨p, hgone, rfl⟩)
  · exact .program hp hfills (hr.settledWith (sweeps_course walked) ha ho horder hp hpos hgone nofun)

/-- A patch that no override touches comes to one of these ends. -/
theorem History.fate (h : History a after walked) (ha : Arises a) (horder : a.Orderly)
    (ho : walked.resolveAll.overrun = false) (hp : p ∈ a.pending) (hpos : 0 < p.kind.span)
    (hx : p.Spared (rewritten after)) : p.Fate a after walked := by
  induction h with
  | refl a => exact Patch.fate_of_walked ha horder ho hp hpos
  | @head a b walked es fs hs rest ih =>
    rw [rewritten_append] at hx
    have hfirst : p.Spared (rewritten es) := fun x hm => hx x (mem_append_left _ hm)
    have hlater : p.Spared (rewritten fs) := fun x hm => hx x (mem_append_right _ hm)
    by_cases hgone : p ∈ b.pending
    · exact (ih (ha.course hs.course) (horder.stage hs ha) ho hgone hlater).head hs
    obtain ⟨id, rfl, htop, hinside, rfl⟩ := hs.taken hp hgone hfirst
    obtain ⟨log, hr, -⟩ := sweeps_resolution (some id) a.pending.size a
    obtain ⟨hfills, -⟩ := horder.aimed.resolution hr
    have hfinal := rest.course.trans (resolveAll_course walked)
    rw [append_nil] at hfinal
    exact .scope (.refl a) hp htop hinside rest rfl hfills
      (hr.settledWith hfinal ha ho horder hp hpos hgone fun x hm => (hlater x hm).1)

theorem Patch.Fate.encoded (h : p.Fate a after walked) (hafter : History a after walked)
    (hd : walked.resolveAll.diagnostics = #[]) :
    ∃ c s bytes between rest, History a between c ∧ History c rest walked ∧ c.symbols.Fills s.symbols ∧
      p.unresolved s = [] ∧ p.ComesTo s (.ok bytes) ∧
      ∀ j < p.kind.span, walked.resolveAll.byteAt p.segment (p.extent.start + j) = bytes[j]? := by
  have hnone (d : Diagnostic) : d ∉ walked.resolveAll.diagnostics := by
    rw [hd]
    exact Array.not_mem_empty d
  have hbytes {s : Assembly} (hs : p.SettledWith s walked.resolveAll) :
      p.unresolved s = [] ∧ ∃ bytes, p.ComesTo s (.ok bytes) ∧
        ∀ j < p.kind.span, walked.resolveAll.byteAt p.segment (p.extent.start + j) = bytes[j]? := by
    obtain ⟨hknown, hbytes | ⟨_, -, hfault⟩⟩ := hs
    · exact ⟨hknown, hbytes⟩
    · exact absurd hfault (hnone _)
  cases h with
  | @scope c id between rest before waits top inside later events same settled =>
    obtain ⟨hknown, bytes, hb⟩ := hbytes settled
    exact ⟨c, _, bytes, between, _, before, (History.single (.ends top)).trans later, same, hknown, hb⟩
  | program waits same settled =>
    obtain ⟨hknown, bytes, hb⟩ := hbytes settled
    exact ⟨walked, _, bytes, after, [], hafter, .refl walked, same, hknown, hb⟩
  | never waits blank reported => exact absurd reported (hnone _)

/-! ## Patches that were not ready -/

/-- A patch waits as long as one of its names has no value. -/
theorem History.waits (h : History a es b) (ha : Arises a) (horder : a.Orderly) (ho : b.overrun = false)
    (hp : p ∈ a.pending) (hpos : 0 < p.kind.span) (hx : p.Spared (rewritten es))
    (hblank : ∀ {fs gs : List Event} {c : Assembly}, History a fs c → History c gs b → p.unresolved c ≠ []) :
    p ∈ b.pending := by
  induction h with
  | refl a => exact hp
  | @head a c b es fs hs rest ih =>
    have hoc := rest.overrun ho
    rw [rewritten_append] at hx
    by_cases hgone : p ∈ c.pending
    · exact ih (ha.course hs.course) (horder.stage hs ha) ho hgone
        (fun x hm => hx x (mem_append_right _ hm)) fun hfirst => hblank (.head hs hfirst)
    · obtain ⟨id, rfl, -, -, rfl⟩ := hs.taken hp hgone fun x hm => hx x (mem_append_left _ hm)
      obtain ⟨log, hr, -⟩ := sweeps_resolution (some id) a.pending.size a
      have hsettled := hr.settledWith (.refl _) ha hoc horder hp hpos hgone nofun
      exact absurd hsettled.1 (hblank (.single hs) rest)

theorem Course.waits_or_done (h : Course a xs b) (ha : Arises a) (ho : b.overrun = false) (hp : p ∈ a.pending)
    (hx : ∀ x ∈ xs, x.Apart p.extent) {k i : Nat} (hcov : p.extent.Covers k i) : p ∈ b.pending ∨ b.Done k i := by
  induction h with
  | refl a => exact .inl hp
  | @head a b c xs ys h rest ih =>
    have hfirst := fun x hm => hx x (mem_append_left _ hm)
    have hlater := fun x hm => hx x (mem_append_right _ hm)
    have hb := ha.course (.single h)
    by_cases hgone : p ∈ b.pending
    · exact ih hb ho hgone hlater
    · exact .inr (rest.settled hb ho (h.done_of_taken ha (rest.overrun ho) hp hgone hfirst hcov)
        fun x hm hxc => hlater x hm k i hxc hcov).1

/-- A patch that still waits behind the end of a scope around it lacks a name there. -/
theorem History.unready (h : History a es c) (h' : History (c.resolveScope id) fs d) (ha : Arises a)
    (ho : d.overrun = false) (hp : p ∈ a.pending) (hpos : 0 < p.kind.span)
    (hx : p.Spared (rewritten (es ++ fs))) (hinside : c.symbols.encloses p.scope id = true)
    (hd : p ∈ d.pending) : p.unresolved (c.resolveScope id) ≠ [] := by
  obtain ⟨log, hr, -⟩ := sweeps_resolution (some id) c.pending.size c
  have hc := h.arises ha
  have hafter : Arises (c.resolveScope id) := hc.course hr.course
  have hoc := h'.overrun ho
  rw [rewritten_append] at hx
  have hcov : p.extent.Covers p.segment p.extent.start := ⟨rfl, Nat.le_refl _, Nat.lt_add_of_pos_right hpos⟩
  have hstill : p ∈ (c.resolveScope id).pending := by
    have hcourse := h.course.trans hr.course
    rw [append_nil] at hcourse
    rcases hcourse.waits_or_done ha hoc hp (fun x hm => (hx x (mem_append_left _ hm)).1) hcov with
      hstill | hdone
    · exact hstill
    · have hend := h'.course.settled hafter ho hdone
        fun x hm hxc => (hx x (mem_append_right _ hm)).1 _ _ hxc hcov
      exact absurd hcov (hend.1.2 p hd)
  have hwaits : p.Waits (c.resolveScope id) := by
    refine sweeps_stuck (Nat.le_refl _) p hstill ?_
    rw [isInside_eq hr.frames]
    exact hinside
  exact (Patch.waits_iff (hafter.reachable.queuePlain p hstill).1).1 hwaits

/-! ## Declarations in scopes that are over -/

theorem History.closed (h : History c.closeScope es d) (hc : Arises c) (horder : c.Orderly)
    (htop : c.symbols.top? = some id) (hp : p ∈ c.pending) (hinside : c.symbols.encloses p.scope id = true)
    (name : String) : Gains (c.symbols.lookupWithin id p.scope name) (d.symbols.lookupWithin id p.scope name) := by
  have hstage : Stage c [.closes id] c.closeScope := .closes htop
  have hclosed := horder.stage hstage hc
  have houter : ∀ j ∈ c.closeScope.symbols.active, j < id := by
    intro j hj
    have hactive : c.symbols.active = id :: c.closeScope.symbols.active := by
      rw [show c.closeScope.symbols.active = c.symbols.active.tail from c.symbols.active_closeScope _]
      obtain ⟨rest, hrest⟩ := head?_eq_some_iff.1 htop
      rw [hrest]
      rfl
    have hnested := horder.nested.descending
    rw [hactive] at hnested
    exact (pairwise_cons.1 hnested).1 j hj
  have hsealed := (Sealed.refl houter).history h (hc.course hstage.course) hclosed
  have hsame : c.closeScope.symbols.lookupWithin id p.scope name = c.symbols.lookupWithin id p.scope name := by
    have hscopes := scopes_closeScope_awaited hp htop hinside
    have hchain : c.closeScope.symbols.chain p.scope = c.symbols.chain p.scope := by
      refine chain_eq fun j _ => ?_
      rw [parent?, parent?, hscopes]
    simp [lookupWithin, hchain, symbolsAt, hscopes]
  rw [← hsame]
  exact hsealed.within hclosed.nested.parents (hclosed.scopes p hp) name

end SpectrumAsm
