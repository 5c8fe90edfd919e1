/-
What becomes of a patch.

The bytes of a waiting patch are blank, and nothing but the patch itself or an override writes to them. So
when a run ends without a diagnostic, each patch has been filled in, unless an override came in between. A
constant that waits is blank exactly as long as its patch waits, and that patch is never dropped.
-/
import Mathlib.Data.List.Pairwise
import SpectrumAsm.Proofs.PatchOrder

namespace SpectrumAsm

open List Assembly

variable {a b : Assembly} {i k : Nat} {p : Patch} {o : Settlement} {xs : List Extent} {slot : Slot}
  {key : String}

/-! ## Blank bytes -/

theorem Code.Built.blank_of_covers {c : Code} (h : c.Built a) {base : Nat}
    {hole : PatchKind × Nat × Expr} (hm : hole ∈ c.holes) (hcov : (a.patchFor base hole).extent.Covers k i) :
    k = a.lastSegment ∧ base ≤ i ∧ i < base + c.bytes.size ∧ c.bytes[i - base]? = some 0 := by
  obtain ⟨hk, hstart, hstop⟩ := hcov
  have hinside := (h.hole hm).inside
  have hfirst : base + hole.2.1 + hole.1.lead ≤ i := hstart
  have hlast : i < base + hole.2.1 + hole.1.lead + hole.1.span := hstop
  have hblank := (h.hole hm).blank (i - (base + hole.2.1 + hole.1.lead)) (by omega)
  refine ⟨hk, by omega, by omega, ?_⟩
  rw [← hblank]
  congr 1
  omega

def Assembly.WaitsBlank (a : Assembly) : Prop := ∀ p ∈ a.pending, ∀ k i, p.extent.Covers k i → a.byteAt k i = some 0

/-! ## What one action does to a byte -/

theorem Assembly.InPlace.eq_of_covers (h : a.InPlace) {q : Patch} (hp : p ∈ a.pending)
    (hq : q ∈ a.pending) (hpc : p.extent.Covers k i) (hqc : q.extent.Covers k i) : p = q := by
  have hsymm : Std.Symm fun p q : Patch => p.extent.Apart q.extent := ⟨fun _ _ h => h.symm⟩
  by_cases heq : p = q
  · exact heq
  · exact absurd hqc
      (h.apart.forall (Array.mem_toList_iff.2 hp) (Array.mem_toList_iff.2 hq) heq k i hpc)

theorem Assembly.InPlace.lt_segmentSize (h : a.InPlace) (hp : p ∈ a.pending)
    (hcov : p.extent.Covers k i) : i < a.segmentSize k := by
  have hinside := h.inside p hp
  rw [hcov.1]
  exact Nat.lt_of_lt_of_le hcov.2.2 hinside

theorem applyPatch_byteAt {v : Value} (h : a.applyPatch p v = .ok b)
    (hcov : ¬ p.extent.Covers k i) : b.byteAt k i = a.byteAt k i := by
  rcases applyPatch_cases h with ⟨_, _, -, -, rfl⟩ | ⟨_, _, rfl, -⟩ | ⟨offset, bytes, hb, hpos⟩
  · rfl
  · rfl
  cases hs : a.segments[p.segment]? with
  | none =>
    subst hb
    unfold byteAt patchBytes
    rw [Array.getElem?_modify]
    split
    · next hk => rw [← hk, hs]; rfl
    · rfl
  | some s =>
    rw [applyPatch_eq hs hpos] at h
    cases he : p.encode a v with
    | error _ => rw [he] at h; cases h
    | ok bytes =>
      rw [he] at h
      cases h
      refine a.byteAt_patchBytes_other ?_
      rw [Patch.length_encode he]
      exact hcov

theorem Settles.byteAt (h : Settles a p o b) (hcov : ¬ p.extent.Covers k i) : b.byteAt k i = a.byteAt k i := by
  cases h with
  | applied he ha =>
    rw [applyPatch_byteAt ha hcov]
    exact byteAt_congr (Asked.ofEvalAt he).segments k i
  | refused he _ | failed he => exact byteAt_congr (Asked.ofEvalAt he).segments k i

namespace Action

section
variable (h : Action a xs b) (ha : Arises a) (ho : b.overrun = false)
include h ha ho

theorem byteAt (hi : i < a.segmentSize k) (hx : ∀ x ∈ xs, ¬ x.Covers k i)
    (hp : ∀ p ∈ a.pending, p.extent.Covers k i → p ∈ b.pending) : b.byteAt k i = a.byteAt k i := by
  have hplace := ha.inPlace (h.move.overrun ho)
  cases h with
  | idle hidle => exact hidle.bytes k i
  | @emit code hc _ =>
    rcases he : a.emit code with ⟨fault | _, b⟩
    · rw [emit_error he]
      exact (Idle.openSegment a).bytes k i
    · exact ((hc.emitted he).bytes k i).trans (if_neg (by omega))
  | awaitEntry _ _ => rfl
  | awaitEqu _ hd =>
    obtain rfl := define_ok hd
    rfl
  | @override _ c j code hj hc _ he hm =>
    have hover := (hc.emitted he).overridden (ha.reachable.instanceInPlace _ hj) hm ho
    exact (hover.bytes k i).trans (if_neg (hx _ (mem_singleton_self _)))
  | @settle b kept rest p o hq hs =>
    have hmem : p ∈ a.pending := by
      rw [← Array.mem_toList_iff, hq]
      exact mem_append_right _ mem_cons_self
    refine hs.byteAt fun hcov => ?_
    -- A patch that is still in the queue would be there twice, and the two would not be apart.
    have happart := hplace.apart
    rw [hq, pairwise_append, pairwise_cons] at happart
    obtain ⟨-, ⟨hrest, -⟩, hkept⟩ := happart
    rcases mem_append.1 (mem_toArray.1 (hp p hmem hcov)) with hm | hm
    · exact hkept p hm p mem_cons_self k i hcov hcov
    · exact hrest p hm k i hcov hcov
  | @giveUp kept rest p _ => exact byteAt_congr (reportWaiting_noted a p).segments k i

/-- A patch in the queue has waited before, and was not rewritten, or it is new. Then it is for blank
bytes that are new too or were just rewritten. -/
theorem queued (hp : p ∈ b.pending) : (p ∈ a.pending ∧ ∀ x ∈ xs, x.Apart p.extent) ∨ ∀ k i, p.extent.Covers k i →
        (a.segmentSize k ≤ i ∨ ∃ x ∈ xs, x.Covers k i) ∧ b.byteAt k i = some 0 := by
  have hplace := ha.inPlace (h.move.overrun ho)
  have hstill {q : Patch} (hq : q.kind.span = 0) (k i : Nat) : ¬ q.extent.Covers k i := by
    rintro ⟨-, hstart, hstop⟩
    simp only [Patch.extent] at hstart hstop
    omega
  cases h with
  | idle hidle => exact .inl ⟨hidle.pending ▸ hp, by simp⟩
  | @emit code hc _ =>
    rcases he : a.emit code with ⟨fault | _, b⟩ <;> rw [he] at hp
    · rw [emit_error he, (Idle.openSegment a).pending] at hp
      exact .inl ⟨hp, by simp⟩
    · have hemitted := hc.emitted he
      rw [hemitted.pending, Array.mem_append] at hp
      rcases hp with hp | hp
      · exact .inl ⟨hp, by simp⟩
      · obtain ⟨hole, hhole, rfl⟩ := mem_map.1 (mem_toArray.1 hp)
        refine .inr fun k i hcov => ?_
        obtain ⟨rfl, hle, -, hblank⟩ := hc.blank_of_covers hhole hcov
        exact ⟨.inl hle, by rw [hemitted.bytes, if_pos ⟨rfl, hle⟩, hblank]⟩
  | awaitEntry hk _ =>
    rcases Array.mem_push.1 hp with hp | rfl
    · exact .inl ⟨hp, by simp⟩
    · refine .inr fun k i hcov => absurd hcov (hstill ?_ k i)
      rcases hk with rfl | rfl <;> rfl
  | awaitEqu _ hd =>
    obtain rfl := define_ok hd
    rcases Array.mem_push.1 hp with hp | rfl
    · exact .inl ⟨hp, by simp⟩
    · exact .inr fun k i hcov => absurd hcov (hstill rfl k i)
  | @override _ c j code hj hc _ he hm =>
    have hin := ha.reachable.instanceInPlace _ hj
    have hover := (hc.emitted he).overridden hin hm ho
    rw [hover.pending, Array.mem_append, Array.mem_filter] at hp
    rcases hp with ⟨hp, htouch⟩ | hp
    · refine .inl ⟨hp, fun x hx => ?_⟩
      obtain rfl := mem_singleton.1 hx
      rw [Extent.apart_iff]
      intro hs _ _
      have hfree : p.touches j.segment (j.start + j.cursor) (j.start + j.cursor + code.bytes.size) = false := by
        simpa using htouch
      exact (hplace.untouched hj hp (Nat.le_add_right _ _) hfree hs.symm).symm
    · obtain ⟨hole, hhole, rfl⟩ := mem_map.1 (mem_toArray.1 hp)
      refine .inr fun k i hcov => ?_
      rw [a.extent_patchFor_inField] at hcov
      obtain ⟨hk, hfirst, hlast, hblank⟩ := hc.blank_of_covers hhole hcov
      have hcovers : (j.extent code.bytes.size).Covers k i := ⟨hk.trans hin.symm, hfirst, hlast⟩
      refine ⟨.inr ⟨_, mem_singleton_self _, hcovers⟩, ?_⟩
      exact (hover.bytes k i).trans ((if_pos hcovers).trans hblank)
  | settle hq _ | giveUp hq => exact .inl ⟨mem_pending_of_taken hq hp, by simp⟩

theorem waitsBlank (hb : a.WaitsBlank) : b.WaitsBlank := by
  have hplace := ha.inPlace (h.move.overrun ho)
  intro p hp k i hcov
  rcases h.queued ha ho hp with ⟨hold, hx⟩ | hnew
  · have hi := hplace.lt_segmentSize hold hcov
    rw [h.byteAt ha ho hi (fun x hm hxc => hx x hm k i hxc hcov), hb p hold k i hcov]
    intro q hq hqc
    rwa [hplace.eq_of_covers hq hold hqc hcov]
  · exact (hnew k i hcov).2

end

end Action

theorem Arises.waitsBlank (h : Arises a) (ho : a.overrun = false) : a.WaitsBlank := by
  obtain ⟨setup, xs, hs⟩ := h
  refine hs.invariant (P := fun a => a.overrun = false → a.WaitsBlank)
    (fun _ _ _ ha hm hb ho => hm.waitsBlank ha ho (hb (hm.move.overrun ho))) (.new setup) ?_ ho
  exact fun _ p hp => absurd hp (Array.not_mem_empty p)

/-! ## Bytes that are done with -/

/-- A byte is there and no patch waits for it. -/
def Assembly.Done (a : Assembly) (k i : Nat) : Prop := i < a.segmentSize k ∧ ∀ p ∈ a.pending, ¬ p.extent.Covers k i

namespace Action

theorem done (h : Action a xs b) (ha : Arises a) (ho : b.overrun = false) (hi : i < a.segmentSize k)
    (hx : ∀ x ∈ xs, ¬ x.Covers k i) (hgone : ∀ p ∈ a.pending, p.extent.Covers k i → p ∉ b.pending) : b.Done k i := by
  refine ⟨Nat.lt_of_lt_of_le hi (h.move.grows.segmentSize_le k), fun p hp hcov => ?_⟩
  rcases h.queued ha ho hp with ⟨hold, -⟩ | hnew
  · exact hgone p hold hcov hp
  · rcases (hnew k i hcov).1 with hle | ⟨x, hm, hxc⟩
    · omega
    · exact hx x hm hxc

theorem done_of_taken (h : Action a xs b) (ha : Arises a) (ho : b.overrun = false) (hp : p ∈ a.pending)
    (hgone : p ∉ b.pending) (hx : ∀ x ∈ xs, x.Apart p.extent) (hcov : p.extent.Covers k i) : b.Done k i := by
  have hplace := ha.inPlace (h.move.overrun ho)
  refine h.done ha ho (hplace.lt_segmentSize hp hcov) (fun x hm hxc => hx x hm k i hxc hcov) ?_
  intro q hq hqc
  rwa [hplace.eq_of_covers hq hp hqc hcov]

end Action

section
variable (h : Course a xs b) (ha : Arises a) (ho : b.overrun = false) (hd : a.Done k i) (hx : ∀ x ∈ xs, ¬ x.Covers k i)
include h ha ho hd hx

/-- A byte that is done with stays so, and as it is. -/
theorem Course.settled : b.Done k i ∧ b.byteAt k i = a.byteAt k i := by
  induction h with
  | refl a => exact ⟨hd, rfl⟩
  | head h rest ih =>
    obtain ⟨hi, hfree⟩ := hd
    have hfirst := fun x hm => hx x (mem_append_left _ hm)
    have hob := rest.overrun ho
    have hdone := h.done ha hob hi hfirst fun p hp hcov => absurd hcov (hfree p hp)
    have hbyte := h.byteAt ha hob hi hfirst fun p hp hcov => absurd hcov (hfree p hp)
    rw [← hbyte]
    exact ih (ha.course (.single h)) ho hdone fun x hm => hx x (mem_append_right _ hm)

end

/-! ## Fates -/

theorem Settles.applied_of_silent (h : Settles a p o b) (hd : b.diagnostics = a.diagnostics) :
    ∃ c v, a.evalAt p.place p.expr = (.ok (.ready v), c) ∧ c.applyPatch p v = .ok b := by
  have hreport := h.diagnostics
  rw [hd] at hreport
  have hsize := congrArg Array.size hreport
  cases h with
  | applied he ha => exact ⟨_, _, he, ha⟩
  | refused he ha | failed he => simp [Settlement.fault?] at hsize

theorem reportWaiting_reports (a : Assembly) (p : Patch) : (a.reportWaiting p).diagnostics ≠ a.diagnostics := by
  intro h
  have hsize := congrArg Array.size h
  unfold reportWaiting at hsize
  rcases he : a.evalAt p.place p.expr with ⟨fault | v | names, b⟩ <;>
    simp [he, reportAt, (Asked.ofEvalAt he).diagnostics] at hsize

/-- There are three ways to leave the queue. -/
theorem Action.leaves (h : Action a xs b) (ha : Arises a) (ho : b.overrun = false)
    (hp : p ∈ a.pending) (hgone : p ∉ b.pending) :
    (∃ o c, Settles a p o c ∧ b = { c with pending := b.pending }) ∨
    b = { a.reportWaiting p with pending := b.pending } ∨
    ∃ i code, a.opened = some i ∧ xs = [i.extent code.bytes.size] ∧ Overridden a i code b ∧
      p.touches i.segment (i.start + i.cursor) (i.start + i.cursor + code.bytes.size) = true := by
  have htaken {kept rest : List Patch} {q : Patch} (hq : a.pending.toList = kept ++ q :: rest)
      (hgone : p ∉ (kept ++ rest).toArray) : q = p := by
    rw [mem_toArray, mem_append] at hgone
    rw [← Array.mem_toList_iff, hq] at hp
    rcases mem_append.1 hp with hm | hm
    · exact absurd (.inl hm) hgone
    · rcases mem_cons.1 hm with rfl | hm
      · rfl
      · exact absurd (.inr hm) hgone
  cases h with
  | idle hidle => exact absurd (hidle.pending ▸ hp) hgone
  | @emit code hc _ =>
    rcases he : a.emit code with ⟨fault | _, b⟩ <;> rw [he] at hgone
    · rw [emit_error he, (Idle.openSegment a).pending] at hgone
      exact absurd hp hgone
    · rw [(hc.emitted he).pending] at hgone
      exact absurd (Array.mem_append_left _ hp) hgone
  | awaitEntry _ _ => exact absurd (Array.mem_push_of_mem _ hp) hgone
  | awaitEqu _ hd =>
    obtain rfl := define_ok hd
    exact absurd (Array.mem_push_of_mem _ hp) hgone
  | @override _ c i code hi hc _ he hm =>
    have hover := (hc.emitted he).overridden (ha.reachable.instanceInPlace _ hi) hm ho
    refine .inr (.inr ⟨i, code, hi, rfl, hover, ?_⟩)
    rw [hover.pending, Array.mem_append, Array.mem_filter] at hgone
    cases ht : p.touches i.segment (i.start + i.cursor) (i.start + i.cursor + code.bytes.size) with
    | true => rfl
    | false => exact absurd (.inl ⟨hp, by rw [ht]; rfl⟩) hgone
  | settle hq hs =>
    obtain rfl := htaken hq hgone
    exact .inl ⟨_, _, hs, rfl⟩
  | giveUp hq =>
    obtain rfl := htaken hq hgone
    exact .inr (.inl rfl)

/-- A patch was filled in on the way from one state to another: in a state where it still waited its
expression had a value, and its bytes hold the encoding of that value now. -/
def Patch.FilledIn (p : Patch) (a b : Assembly) : Prop := ∃ s c v bytes, Acts a s ∧ Acts s b ∧ p ∈ s.pending ∧
    s.evalAt p.place p.expr = (.ok (.ready v), c) ∧ p.encode s v = .ok bytes ∧
    ∀ j < p.kind.span, b.byteAt p.segment (p.extent.start + j) = bytes[j]?

/-- A word was dropped from the queue, and its bytes are blank: one of the overrides had no bytes, and
its place was between the two of the word. -/
def Patch.LeftBlank (p : Patch) (rewritten : List Extent) (b : Assembly) : Prop :=
  p.kind.span = 2 ∧ ⟨p.segment, p.extent.start + 1, p.extent.start + 1⟩ ∈ rewritten ∧
    ∀ j < p.kind.span, b.byteAt p.segment (p.extent.start + j) = some 0

theorem Patch.encode_congr (p : Patch) (h : b.segments = a.segments) (v : Value) : p.encode b v = p.encode a v := by
  unfold encode
  rw [h]

theorem Patch.Fillable.applied {c : Assembly} {v : Value} (h : p.Fillable a)
    (he : a.evalAt p.place p.expr = (.ok (.ready v), c)) (ha : c.applyPatch p v = .ok b) :
    ∃ bytes, p.encode a v = .ok bytes ∧ ∀ j < p.kind.span, b.byteAt p.segment (p.extent.start + j) = bytes[j]? := by
  have hsegments := (Asked.ofEvalAt he).segments
  obtain ⟨bytes, hbytes, -, hover⟩ := (h.congr hsegments).overwritten ha
  have hlength := Patch.length_encode hbytes
  refine ⟨bytes, p.encode_congr hsegments v ▸ hbytes, fun j hj => ?_⟩
  rw [hover, if_pos ⟨rfl, by omega, by omega⟩, Nat.add_sub_cancel_left]

theorem Settles.fills (h : Settles a p o b) (hd : b.diagnostics = a.diagnostics) (hfill : p.Fillable a) :
    ∃ c v bytes, a.evalAt p.place p.expr = (.ok (.ready v), c) ∧ p.encode a v = .ok bytes ∧
      ∀ j < p.kind.span, b.byteAt p.segment (p.extent.start + j) = bytes[j]? := by
  obtain ⟨c, v, he, happly⟩ := h.applied_of_silent hd
  obtain ⟨bytes, hbytes⟩ := hfill.applied he happly
  exact ⟨c, v, bytes, he, hbytes⟩

theorem Overridden.leftBlank {i : StructInstance} {code : Code} (h : Overridden a i code b)
    (hplace : a.InPlace) (hblank : a.WaitsBlank) (hi : a.opened = some i) (hp : p ∈ a.pending) (hpos : 0 < p.kind.span)
    (ht : p.touches i.segment (i.start + i.cursor) (i.start + i.cursor + code.bytes.size) = true)
    (hx : (i.extent code.bytes.size).Apart p.extent) : p.LeftBlank [i.extent code.bytes.size] b := by
  obtain ⟨hs, hstart, hfirst, hlast⟩ := hplace.touched hi hp (Nat.le_add_right _ _) ht
  have hstop : p.extent.stop = p.extent.start + p.kind.span := rfl
  have hspan : p.kind.span ≤ 2 := by cases p.kind <;> decide
  have happart := Extent.apart_iff.1 hx hs.symm
  simp only [StructInstance.extent] at happart
  have hempty : code.bytes.size = 0 := by omega
  have hmiddle : i.start + i.cursor = p.extent.start + 1 := by omega
  refine ⟨by omega, ?_, fun j hj => ?_⟩
  · rw [mem_singleton, StructInstance.extent, hempty, hmiddle, hs]
  · rw [h.bytes, if_neg (by omega)]
    exact hblank p hp _ _ ⟨rfl, by omega, by omega⟩

/-- In a silent run a patch whose bytes are not rewritten still waits in the end, or its bytes are done with: it is
filled in or left blank. -/
theorem Course.fate (h : Course a xs b) (ha : Arises a) (ho : b.overrun = false) (hd : b.diagnostics = a.diagnostics)
    (hp : p ∈ a.pending) (hpos : 0 < p.kind.span) (hx : ∀ x ∈ xs, x.Apart p.extent) :
    p ∈ b.pending ∨ (∀ k i, p.extent.Covers k i → b.Done k i) ∧ (p.FilledIn a b ∨ p.LeftBlank xs b) := by
  induction h with
  | refl a => exact .inl hp
  | @head a b c xs ys h rest ih =>
    have hob := rest.overrun ho
    have hb := ha.course (.single h)
    have hplace := ha.inPlace (h.move.overrun hob)
    obtain ⟨hdb, hdc⟩ := h.move.reported.between rest.moves.reported hd
    have hfirst := fun x hm => hx x (mem_append_left _ hm)
    have hlater := fun x hm => hx x (mem_append_right _ hm)
    by_cases hgone : p ∈ b.pending
    · refine (ih hb ho hdc hgone hlater).imp_right fun hfate => hfate.imp_right ?_
      rintro (⟨s, d, v, bytes, hs, hfilled⟩ | ⟨hspan, hm, hbytes⟩)
      · exact .inl ⟨s, d, v, bytes, (Acts.single h).trans hs, hfilled⟩
      · exact .inr ⟨hspan, mem_append_right _ hm, hbytes⟩
    -- From here on the bytes of the patch are as this action left them.
    have hdone {k i : Nat} (hcov : p.extent.Covers k i) : c.Done k i ∧ c.byteAt k i = b.byteAt k i :=
      rest.settled hb ho (h.done_of_taken ha hob hp hgone hfirst hcov) fun x hm hxc => hlater x hm _ _ hxc hcov
    have hkept {j : Nat} (hj : j < p.kind.span) : c.byteAt p.segment (p.extent.start + j) =
        b.byteAt p.segment (p.extent.start + j) :=
      (hdone ⟨rfl, Nat.le_add_right _ _, Nat.add_lt_add_left hj _⟩).2
    refine .inr ⟨fun k i hcov => (hdone hcov).1, ?_⟩
    rcases h.leaves ha hob hp hgone with ⟨o, d, hs, hbd⟩ | hgive | ⟨i, code, hi, rfl, hover, ht⟩
    · have hsilent : d.diagnostics = a.diagnostics := by rw [hbd] at hdb; exact hdb
      obtain ⟨e, v, bytes, he, hbytes, hfill⟩ := hs.fills hsilent ⟨hpos, hplace.inside p hp⟩
      refine .inl ⟨a, e, v, bytes, .refl a, (Acts.single h).trans ⟨ys, rest⟩, hp, he, hbytes, ?_⟩
      intro j hj
      rw [hkept hj, hbd]
      exact hfill j hj
    · rw [hgive] at hdb
      exact absurd hdb (reportWaiting_reports a p)
    · obtain ⟨hspan, hm, hbytes⟩ := hover.leftBlank hplace (ha.waitsBlank (h.move.overrun hob)) hi hp
        hpos ht (hfirst _ (mem_singleton_self _))
      exact .inr ⟨hspan, mem_append_left ys hm, fun j hj => by rw [hkept hj, hbytes j hj]⟩

/-! ## Constants -/

/-- For every symbol without a value a patch waits that will give it one. -/
def Assembly.BlanksAwaited (a : Assembly) : Prop :=
  ∀ slot key, a.symbols.Blank slot key → ∃ p ∈ a.pending, p.kind = .equ ∧ p.target = some (slot, key)

theorem Settles.blank (h : Settles a p o b) (hb : b.symbols.Blank slot key) : a.symbols.Blank slot key := by
  cases h with
  | applied he ha =>
    refine (Idle.note (.ofAsked (.ofEvalAt he))).blank slot key ?_
    rcases applyPatch_cases ha with ⟨_, _, -, -, rfl⟩ | ⟨_, _, rfl, -⟩ | ⟨_, _, rfl, -⟩
    · exact hb.of_assign.1
    · exact hb
    · exact hb
  | refused he _ | failed he => exact (Idle.note (.ofAsked (.ofEvalAt he))).blank slot key hb

theorem Settles.assigns (h : Settles a p o b) (hd : b.diagnostics = a.diagnostics)
    (hk : p.kind = .equ) (ht : p.target = some (slot, key)) : ¬ b.symbols.Blank slot key := by
  obtain ⟨c, v, -, happly⟩ := h.applied_of_silent hd
  unfold applyPatch at happly
  rw [hk, ht] at happly
  cases happly
  exact fun hb => hb.of_assign.2 ⟨rfl, rfl⟩

namespace Action

theorem blank (h : Action a xs b) (ha : Arises a) (ho : b.overrun = false) (hb : b.symbols.Blank slot key) :
    a.symbols.Blank slot key ∨ ∃ p ∈ b.pending, p.kind = .equ ∧ p.target = some (slot, key) := by
  cases h with
  | idle hidle => exact .inl (hidle.blank slot key hb)
  | @emit code _ _ =>
    obtain ⟨_, _, he⟩ := a.emit_eq code
    rw [he] at hb
    exact .inl hb
  | awaitEntry _ _ => exact .inl hb
  | awaitEqu _ hd =>
    obtain rfl := define_ok hd
    rcases hb.of_addSymbol with hb | ⟨rfl, rfl, -⟩
    · exact .inl hb
    · exact .inr ⟨_, Array.mem_push_self, rfl, rfl⟩
  | override hi hc _ he hm =>
    have hover := (hc.emitted he).overridden (ha.reachable.instanceInPlace _ hi) hm ho
    rw [hover.symbols] at hb
    exact .inl hb
  | settle _ hs => exact .inl (hs.blank hb)
  | giveUp _ => exact .inl ((Idle.note (reportWaiting_noted a _)).blank slot key hb)

theorem blanksAwaited (h : Action a xs b) (ha : Arises a) (ho : b.overrun = false)
    (hd : b.diagnostics = a.diagnostics) (hw : a.BlanksAwaited) : b.BlanksAwaited := by
  have hplace := ha.inPlace (h.move.overrun ho)
  intro slot key hb
  rcases h.blank ha ho hb with hold | hnew
  · obtain ⟨p, hp, hk, ht⟩ := hw slot key hold
    by_cases hgone : p ∈ b.pending
    · exact ⟨p, hgone, hk, ht⟩
    rcases h.leaves ha ho hp hgone with ⟨o, c, hs, hbc⟩ | hgive | ⟨i, code, hi, -, -, htouch⟩
    · rw [hbc] at hd hb
      exact absurd hb (hs.assigns hd hk ht)
    · rw [hgive] at hd
      exact absurd hd (reportWaiting_reports a p)
    · obtain ⟨-, hstart, -, hlast⟩ := hplace.touched hi hp (Nat.le_add_right _ _) htouch
      have hzero := hplace.still p hp (by rw [hk]; rfl)
      have hstop : p.extent.stop = p.extent.start + p.kind.span := rfl
      rw [hk, PatchKind.span] at hstop
      omega
  · exact hnew

end Action

theorem Course.blanksAwaited (h : Course a xs b) (ha : Arises a) (ho : b.overrun = false)
    (hd : b.diagnostics = a.diagnostics) (hw : a.BlanksAwaited) : b.BlanksAwaited := by
  induction h with
  | refl a => exact hw
  | head h rest ih =>
    obtain ⟨hfirst, hrest⟩ := h.move.reported.between rest.moves.reported hd
    exact ih (ha.course (.single h)) ho hrest (h.blanksAwaited ha (rest.overrun ho) hfirst hw)

theorem Assembly.BlanksAwaited.new (setup : Setup) : (Assembly.new setup).BlanksAwaited := by
  rintro slot key ⟨s, hs, -⟩
  have hempty : ((Assembly.new setup).symbols.symbolsAt slot).entries = [] := by
    cases slot with
    | scope id => rfl
    | module id => cases id <;> rfl
  rw [hempty] at hs
  cases hs

/-! ## Silent runs -/

theorem assembleLines_course {lines : List SourceLine} (h : ((walkProgram lines).run a).2.hanging = none) :
    Course ((walkProgram lines).run a).2 [] ((assembleLines lines).run a).2 := by
  have hflush : ((walkProgram lines).run a).2.flushLabel = ((walkProgram lines).run a).2 := by
    unfold flushLabel
    rw [h]
  show Course _ [] ((walkProgram lines).run a).2.flushLabel.resolveAll
  rw [hflush]
  exact resolveAll_course _

theorem pending_assembleLines (lines : List SourceLine) (a : Assembly) :
    ((assembleLines lines).run a).2.pending = #[] :=
  (resolveAll_noted ((walkProgram lines).run a).2.flushLabel).pending

/-- When a program is assembled without a diagnostic, every exported symbol has a value. A patch for
bytes that was in the queue in any state of the run, and none of whose bytes an override has rewritten
since, has been filled in with the value its expression had, or is a word that was left blank because of
an override without bytes. -/
theorem silent_run_fills_patches (setup : Setup) (lines : List SourceLine)
    (hd : ((assembleLines lines).run (.new setup)).2.diagnostics = #[])
    (ho : ((assembleLines lines).run (.new setup)).2.overrun = false) :
    let final := ((assembleLines lines).run (.new setup)).2
    (∀ entry ∈ final.symbols.exported.entries, entry.2.value.isSome) ∧
    (∃ rewritten, Course (.new setup) rewritten final) ∧
    ∀ a earlier later, Course (.new setup) earlier a → Course a later final →
      ∀ p ∈ a.pending, 0 < p.kind.span → (∀ x ∈ later, x.Apart p.extent) →
        p.FilledIn a final ∨ p.LeftBlank later final := by
  have hempty := pending_assembleLines lines (.new setup)
  obtain ⟨rewritten, hcourse⟩ := assembleLines_runs lines (.new setup) (Arises.new setup).reachable
  generalize ((assembleLines lines).run (.new setup)).2 = final at hd ho hempty hcourse ⊢
  refine ⟨fun entry hm => ?_, ⟨rewritten, hcourse⟩, fun a earlier later ha hlater p hp hpos hx => ?_⟩
  · have hawaited := hcourse.blanksAwaited (.new setup) ho hd (.new setup)
    obtain ⟨id, key, hkey⟩ := SymbolTable.mem_exported hm
    cases hvalue : entry.2.value with
    | some v => rfl
    | none =>
      obtain ⟨p, hp, -⟩ := hawaited _ _ ⟨entry.2, hkey, hvalue⟩
      rw [hempty] at hp
      exact absurd hp (Array.not_mem_empty p)
  · obtain ⟨-, hsilent⟩ := ha.moves.reported.between hlater.moves.reported hd
    rcases hlater.fate ((Arises.new setup).course ha) ho hsilent hp hpos hx with hwaits | ⟨-, hfate⟩
    · rw [hempty] at hwaits
      exact absurd hwaits (Array.not_mem_empty p)
    · exact hfate

/-- A branch and a structure whose word waits for a label. The structure is shorter in the instance than
where it was defined, so that the field is in the middle of the word there; the override of the field
has no bytes. -/
def linesWithEmptyField : List SourceLine :=
  let later : Expr := .symbol ⟨["LATER"], false⟩
  let n : Expr := .symbol ⟨["N"], false⟩
  [⟨⟨0, 0⟩, some "n", some (.pragma (.var (.int 1))), none⟩, ⟨⟨0, 1⟩, some "s", some (.statement .structDef), none⟩,
    ⟨⟨0, 2⟩, none, some (.pragma (.defs n)), none⟩,
    ⟨⟨0, 3⟩, some "f", some (.pragma (.defw [later])), none⟩,
    ⟨⟨0, 4⟩, none, some (.statement .endStruct), none⟩,
    ⟨⟨0, 5⟩, some "n", some (.pragma (.var (.int 0))), none⟩,
    ⟨⟨0, 6⟩, none, some (.op .jr [.expr later]), none⟩,
    ⟨⟨0, 7⟩, none, some (.invoke "s" []), none⟩,
    ⟨⟨0, 8⟩, none, some (.field (some "f") (.defs (.int 0))), none⟩,
    ⟨⟨0, 9⟩, some "later", some (.pragma (.defb [.int 7])), none⟩]

/-- Both the branch and the word wait behind the instance, but only the branch is filled in. -/
theorem silent_run_fills_patches_branch :
    let waiting := ((walkDepth 0 (linesWithEmptyField.take 8)).run (.new {})).2
    let walked := ((walkProgram linesWithEmptyField).run (.new {})).2
    let final := ((assembleLines linesWithEmptyField).run (.new {})).2
    waiting.pending.toList.map (fun p => (p.kind, p.extent)) = [(.branch, ⟨0, 1, 2⟩), (.word, ⟨0, 2, 4⟩)] ∧
    walked.pending.toList.map (fun p => (p.kind, p.extent)) = [(.branch, ⟨0, 1, 2⟩)] ∧
    final.diagnostics = #[] ∧ final.segments.map (·.bytes) = #[#[0x18, 2, 0, 0, 7]] ∧
    (∀ entry ∈ final.symbols.exported.entries, entry.2.value.isSome) ∧
    ∀ p ∈ walked.pending, p.FilledIn walked final := by
  have hd : ((assembleLines linesWithEmptyField).run (.new {})).2.diagnostics = #[] :=
    Array.isEmpty_iff.1 (by decide +kernel)
  have ho : ((assembleLines linesWithEmptyField).run (.new {})).2.overrun = false := by decide +kernel
  have hhanging : ((walkProgram linesWithEmptyField).run (.new {})).2.hanging = none :=
    Option.isNone_iff_eq_none.1 (by decide +kernel)
  have hspans : ∀ p ∈ ((walkProgram linesWithEmptyField).run (.new {})).2.pending, 0 < p.kind.span := by
    decide +kernel
  obtain ⟨earlier, hearlier⟩ := walkProgram_runs linesWithEmptyField (.new {}) (Arises.new {}).reachable
  have hlater := assembleLines_course hhanging
  obtain ⟨hvalues, -, hfates⟩ := silent_run_fills_patches {} linesWithEmptyField hd ho
  refine ⟨by decide +kernel, by decide +kernel, hd, by decide +kernel, hvalues, fun p hp => ?_⟩
  rcases hfates _ earlier [] hearlier hlater p hp (hspans p hp) (by simp) with hfilled | ⟨-, hm, -⟩
  · exact hfilled
  · cases hm

end SpectrumAsm
