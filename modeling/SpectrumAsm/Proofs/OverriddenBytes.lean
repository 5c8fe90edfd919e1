/-
What becomes of the bytes of an instance.

Each byte ends as the lines of the structure or the last override of it have put it there, with the patches
that wait for it filled in. An override drops every patch that it touches; what it does not rewrite stays blank.
The bytes are followed through the states in which lines were visited (`Stages`).
-/
import SpectrumAsm.Proofs.InstanceBounds
import SpectrumAsm.Proofs.PatchFates

namespace SpectrumAsm

open List Option Assembly

variable {a b c : Assembly} {j k : Nat} {name : Option String} {p : Patch} {line : SourceLine}

/-! ## Stretches without an override -/

/-- No override is accepted on the way from one state to another, as far as the first one can come
about. -/
def WithoutOverride (a b : Assembly) : Prop := Reachable a → Course a [] b

namespace WithoutOverride

open Naming (chain)

instance : IsPreorder Assembly WithoutOverride where
  refl a _ := .refl a
  trans _ _ _ h h' ha := (h ha).trans (h' (ha.moves (h ha).moves))

theorem history (h : History a [] b) : WithoutOverride a b := fun _ => h.course

theorem calm (h : Calm a b) : WithoutOverride a b := history h.history

theorem idle (h : Idle a b) : WithoutOverride a b := fun _ => .single (.idle h)

theorem housekeeping : Housekeeping WithoutOverride where
  note h _ := idle (.note h)
  closeInstance a := idle (.closeInstance a)
  define a name kind value := calm (define_calm a name kind value)
  addMacro a d := idle (.symbols (.addMacro a.symbols d) fun _ _ hb => hb.of_modifyModule fun _ => rfl)
  addStruct a d hfits := idle (.symbols (.addStruct hfits) fun _ _ hb => hb.of_modifyModule fun _ => rfl)
  enterScope a kind pass _ := (Stage.opens a kind pass).course
  resolveScope a id _ := by
    obtain ⟨log, h, -⟩ := sweeps_resolution (some id) a.pending.size a
    exact h.course
  closeScope a := idle (.closeScope a)
  enterModule h _ := (Stage.enters h).course
  leaveModule a _ := (Stage.leaves a).course
  openLoop a key v := calm (openLoop_calm a key v)
  assign a id key v := idle (.symbols (.count a.symbols id key v) fun _ _ hb => hb.of_assign.1)

theorem atOverride {i o : StructInstance} (hi : a.opened = some i) (hseek : i.seek name = .ok o)
    (line : SourceLine) : WithoutOverride a (a.atOverride line o) := by
  obtain ⟨cursor, rfl⟩ := i.seek_ok hseek
  have hopened := (a.opened_bindLineLabel line).trans hi
  exact chain (calm (bindLineLabel_calm a line)) (idle (.seek hopened cursor))

/-- An override that is refused leaves only bookkeeping behind. -/
theorem refused {p : Pragma} (hs : line.stmt = some (.field name p))
    (hn : a.accepted? line = none) : WithoutOverride a ((walkSingle none line).run a).2 := by
  have hhouse := housekeeping
  cases hparam : (Stmt.field name p).hasParam with
  | true =>
    rw [run_walkSingle_field hs, hparam]
    exact hhouse.report a _
  | false =>
  by_cases hput : ∃ i o, a.opened = some i ∧ i.seek name = .ok o ∧ p.emitsData = true
  · obtain ⟨i, o, hi, hseek, hp⟩ := hput
    rw [run_walkSingle_override hs hparam hp hi hseek]
    refine chain (atOverride hi hseek line) (run_reporting_related (fun hreach => ?_) hhouse.report)
    have hdata : (a.atOverride line o).overrideData? o p = none := by
      simp only [accepted?, hi, hs, hparam, hp, hseek, Bool.not_true, Bool.or_self,
        Bool.false_eq_true, if_false, map_eq_none_iff] at hn
      exact hn
    obtain ⟨b, hasked, ⟨-, hr⟩ | ⟨code, c, d, -, -, -, -, -, -, hsome⟩⟩ :=
      putOverride_cases hp (hreach.instanceInPlace o rfl)
    · have hfield : Calm (a.atOverride line o) b := (atField_calm _ o).trans (.ofAsked hasked)
      rcases hr with hr | hr <;> rw [hr]
      · exact hfield.history.course
      · exact (hfield.trans (openSegment_calm b)).history.course
    · rw [hdata] at hsome
      cases hsome
  · have hopened := a.opened_bindLineLabel line
    rw [run_walkSingle_field hs, hparam]
    refine chain (hhouse.bindLineLabel a line) (run_reporting_related ?_ hhouse.report)
    cases hi : a.opened with
    | none =>
      rw [run_overrideField_outside (hopened.trans hi)]
      exact refl _
    | some i =>
    rw [run_overrideField (hopened.trans hi)]
    cases hseek : i.seek name with
    | error fault => exact refl _
    | ok o =>
    obtain ⟨cursor, rfl⟩ := i.seek_ok hseek
    cases hp : p.emitsData with
    | true => exact absurd ⟨i, _, hi, hseek, hp⟩ hput
    | false => exact idle (.seek (hopened.trans hi) cursor)

theorem single (hn : a.accepted? line = none) : WithoutOverride a ((walkSingle none line).run a).2 := by
  refine housekeeping.single housekeeping.closeInstance (fun hplain => history (walkSingle_plain none hplain a).2)
    (fun _ _ hs => refused hs hn) (fun name args _ => ?_) fun s => (runStatement_calm s).mono calm
  exact Upkeep.invoke line.pos fun d _ hd _ ha =>
    (invokeStruct_history (ha.structsFit.findStruct hd) ha.branchesInside).course

end WithoutOverride

/-! ## Overrides that are accepted -/

namespace Assembly

/-- The patches that come with the override of a line: those of its data, moved with it to the field. -/
def overridePatches (a : Assembly) (line : SourceLine) (o : StructInstance) : Array Patch :=
  match line.stmt with
  | some (.field _ p) =>
    let drafted := ((runPragma none p).run.run ((a.atOverride line o).atField o)).2
    (drafted.pending.extract a.pending.size drafted.pending.size).map
      (·.moveToField (a.segmentSize o.segment) (o.start + o.cursor))
  | _ => #[]

/-- The override of a line takes its bytes over: they are its data now. Of the patches that waited before,
those that fill none of these bytes and do not lie around them still wait, and behind them the patches
that came with the data. -/
structure TakenOver (a : Assembly) (line : SourceLine) (o : StructInstance) (data : List UInt8)
    (b : Assembly) : Prop where
  pending : b.pending = (a.pending.filter fun p =>
    !p.touches o.segment (o.start + o.cursor) (o.start + o.cursor + data.length)) ++ a.overridePatches line o
  own : ∀ p ∈ a.overridePatches line o, ∀ k j, p.extent.Covers k j → (o.extent data.length).Covers k j
  size : ∀ k, b.segmentSize k = a.segmentSize k
  bytes : ∀ k j, b.byteAt k j = if k = o.segment ∧ o.start + o.cursor ≤ j ∧
    j < o.start + o.cursor + data.length then data[j - (o.start + o.cursor)]? else a.byteAt k j

variable {o : StructInstance} {data : List UInt8}

/-- An override that is accepted takes over the bytes of its field, and no others. -/
theorem accepted?_takenOver (ha : Reachable a) (h : a.accepted? line = some (o, data)) :
    Acts a ((walkSingle none line).run a).2 ∧ (((walkSingle none line).run a).2.overrun = false →
      a.TakenOver line o data ((walkSingle none line).run a).2) := by
  obtain ⟨i, name, p, hi, hs, hparam, hp, hseek, hdata⟩ := accepted?_inv h
  have hcourse := WithoutOverride.atOverride hi hseek line ha
  have hin := (ha.moves hcourse.moves).instanceInPlace o rfl
  obtain ⟨b, hab, ⟨hnone, -⟩ | ⟨code, c, d, hbuilt, hisData, he, hm, hrun, hput, hsome⟩⟩ := putOverride_cases hp hin
  · rw [hnone] at hdata
    cases hdata
  rw [hsome] at hdata
  cases hdata
  rw [run_walkSingle_override hs hparam hp hi hseek, run_reporting, hput]
  have hlast : o.segment = b.lastSegment := hin.trans (Noted.ofAsked hab).lastSegment.symm
  have hopened : b.opened = some o := (Noted.ofAsked hab).opened
  have hbefore : Course a [] b := hcourse.trans ((atField_calm _ o).trans (.ofAsked hab)).history.course
  refine ⟨⟨_, hbefore.trans (.single (.override hopened hbuilt hisData he hm))⟩, fun ho => ?_⟩
  have hpending : b.pending = a.pending := hab.pending.trans (a.atOverride_same line o).1
  have hsegments : b.segments = a.segments := hab.segments.trans (a.atOverride_same line o).2
  have hover := (hbuilt.emitted he).overridden hlast hm ho
  have hpatches : a.overridePatches line o =
      (code.holes.map fun hole => b.patchFor (o.start + o.cursor) (hole.1.inField, hole.2)).toArray := by
    rw [← (hbuilt.emitted he).map_moveToField, ← hlast, segmentSize_congr hsegments, hpending]
    unfold overridePatches
    rw [hs]
    dsimp only
    rw [hrun]
  refine ⟨?_, fun q hq k j hcov => ?_, fun k => ?_, fun k j => ?_⟩
  · rw [hover.pending, hpending, hpatches, Array.length_toList]
  · rw [hpatches] at hq
    obtain ⟨hole, hhole, rfl⟩ := mem_map.1 (mem_toArray.1 hq)
    rw [b.extent_patchFor_inField] at hcov
    obtain ⟨hk, hfirst, hlater, -⟩ := hbuilt.blank_of_covers hhole hcov
    rw [Array.length_toList]
    exact ⟨hk.trans hlast.symm, hfirst, hlater⟩
  · rw [hover.size, segmentSize_congr hsegments]
  · rw [hover.bytes, byteAt_congr hsegments, Array.length_toList, Array.getElem?_toList]

end Assembly

/-! ## From line to line -/

/-- What the visit of a line leads to: without an override that is accepted there are only actions without
any, and a line by itself leaves what it leaves when it is run. -/
structure Assembly.Visited (a : Assembly) (line : SourceLine) (b : Assembly) : Prop where
  plain : a.accepted? line = none → Course a [] b
  override : ∀ o data, a.accepted? line = some (o, data) → Acts a b ∧ (b.overrun = false → a.TakenOver line o data b)
  single : a.invoked? line = none → b = ((walkSingle none line).run a).2

namespace Assembly.Visited

theorem of_single (ha : Reachable a) (line : SourceLine) : a.Visited line ((walkSingle none line).run a).2 :=
  ⟨fun hn => WithoutOverride.single hn ha, fun _ _ h => accepted?_takenOver ha h, fun _ => rfl⟩

theorem of_invoked (ha : Reachable a) (h : a.invoked? line ≠ none) : a.Visited line (a.atInvocation line) := by
  have hnone := accepted?_of_not_field (a := a) (not_field_of_invoked h)
  refine ⟨fun _ => WithoutOverride.housekeeping.atInvocation a line ha, fun o data hput => ?_,
    fun hsingle => absurd hsingle h⟩
  rw [hnone] at hput
  cases hput

theorem acts (h : a.Visited line b) : Acts a b := by
  cases hput : a.accepted? line with
  | none => exact ⟨[], h.plain hput⟩
  | some put => exact (h.override _ _ hput).1

end Assembly.Visited

/-- From one state to another by way of the lines in a list, each with the state in which it was visited. -/
inductive Stages (start : Assembly) : List (SourceLine × Assembly) → Assembly → Prop where
  | refl : Stages start [] start
  /-- between two lines -/
  | between {log : List (SourceLine × Assembly)} {a b : Assembly} (h : Stages start log a)
    (hb : Course a [] b) : Stages start log b
  | visit {log : List (SourceLine × Assembly)} {a b : Assembly} {line : SourceLine} (h : Stages start log a)
    (hb : a.Visited line b) : Stages start (log ++ [(line, a)]) b

namespace Stages

variable {start : Assembly} {log : List (SourceLine × Assembly)}

theorem acts (h : Stages start log a) : Acts start a := by
  induction h with
  | refl => exact .refl start
  | between _ hb ih => exact ih.trans ⟨[], hb⟩
  | visit _ hb ih => exact ih.trans hb.acts

theorem arises (h : Stages start log a) (hs : Arises start) : Arises a := by
  obtain ⟨xs, hcourse⟩ := h.acts
  exact hs.course hcourse

theorem of_walks {setup : Setup} {call : Call} {t : Tally} (h : Walks call (.new setup) t a) :
    Stages (.new setup) t.visits a := by
  have hnew := Arises.new setup
  have hstep := WithoutOverride.housekeeping.logs
    (fun a n => WithoutOverride.idle (.note (by apply Noted.ofSame <;> rfl))) (I := Stages (.new setup))
    (fun hlog hb _ => .between hlog (hb (hlog.arises hnew).reachable))
    (fun hlog _ => .visit hlog (.of_single (hlog.arises hnew).reachable _))
    fun hlog hinvoked _ => .visit hlog (.of_invoked (hlog.arises hnew).reachable hinvoked)
  exact (h.logged hstep .refl).1

theorem split (h : Stages start log b) {before after : List (SourceLine × Assembly)}
    (hsplit : log = before ++ (line, a) :: after) :
    ∃ c, Stages start before a ∧ a.Visited line c ∧ Stages c after b := by
  induction h generalizing after with
  | refl => simp at hsplit
  | between _ hb ih =>
    obtain ⟨c, hbefore, hc, hafter⟩ := ih hsplit
    exact ⟨c, hbefore, hc, hafter.between hb⟩
  | @visit log d b line' h hb ih =>
    rcases eq_nil_or_concat after with rfl | ⟨front, last, rfl⟩
    · obtain ⟨rfl, hlast⟩ := append_inj' hsplit rfl
      cases hlast
      exact ⟨b, h, hb, .refl⟩
    · rw [concat_eq_append] at hsplit ⊢
      rw [← cons_append, ← append_assoc] at hsplit
      obtain ⟨rfl, hlast⟩ := append_inj' hsplit rfl
      cases hlast
      obtain ⟨c, hbefore, hc, hafter⟩ := ih rfl
      exact ⟨c, hbefore, hc, hafter.visit hb⟩

end Stages

/-! ## Fates of bytes -/

instance (x : Extent) (k i : Nat) : Decidable (x.Covers k i) := inferInstanceAs (Decidable (_ ∧ _ ∧ _))

def Assembly.Rewrites (a : Assembly) (line : SourceLine) (k j : Nat) : Prop :=
  ∃ put ∈ a.accepted? line, (put.1.extent put.2.length).Covers k j

instance (a : Assembly) (line : SourceLine) (k j : Nat) : Decidable (a.Rewrites line k j) :=
  inferInstanceAs (Decidable (∃ put ∈ a.accepted? line, _))

def Assembly.Drops (a : Assembly) (line : SourceLine) (p : Patch) : Prop :=
  p ∈ a.pending ∧ ∃ o data, a.accepted? line = some (o, data) ∧
    p.touches o.segment (o.start + o.cursor) (o.start + o.cursor + data.length) = true

def Patch.DroppedBy (p : Patch) (visits : List (SourceLine × Assembly)) : Prop :=
  ∃ visit ∈ visits, visit.2.Drops visit.1 p

/-- A byte was filled in on the way from one state to another: in a state where a patch still waited for it,
the expression of the patch had a value, and the byte is that of the encoding of this value now. -/
def Patch.FillsByte (p : Patch) (a b : Assembly) (k j : Nat) : Prop :=
  ∃ s c v bytes, Acts a s ∧ Acts s b ∧ p ∈ s.pending ∧ s.evalAt p.place p.expr = (.ok (.ready v), c) ∧
    p.encode s v = .ok bytes ∧ b.byteAt k j = bytes[j - p.extent.start]?

theorem Patch.FillsByte.extend (h : p.FillsByte a b k j) (hc : Acts b c)
    (hbyte : c.byteAt k j = b.byteAt k j) : p.FillsByte a c k j := by
  obtain ⟨s, d, v, bytes, hs, hb, hp, he, hbytes, hfill⟩ := h
  exact ⟨s, d, v, bytes, hs, hb.trans hc, hp, he, hbytes, hbyte.trans hfill⟩

theorem Patch.FillsByte.after (h : p.FillsByte b c k j) (hb : Acts a b) : p.FillsByte a c k j := by
  obtain ⟨s, d, v, bytes, hs, hfilled⟩ := h
  exact ⟨s, d, v, bytes, hb.trans hs, hfilled⟩

theorem Patch.FilledIn.fillsByte (h : p.FilledIn a b) (hcov : p.extent.Covers k j) : p.FillsByte a b k j := by
  obtain ⟨s, c, v, bytes, hs, hb, hp, he, hbytes, hfill⟩ := h
  obtain ⟨rfl, hstart, hstop⟩ := hcov
  have hspan : p.extent.stop = p.extent.start + p.kind.span := rfl
  have hbyte := hfill (j - p.extent.start) (by omega)
  rw [Nat.add_sub_cancel' hstart] at hbyte
  exact ⟨s, c, v, bytes, hs, hb, hp, he, hbytes, hbyte⟩

namespace Assembly

variable {o : StructInstance} {data : List UInt8}

theorem Drops.span_eq (h : a.Drops line p) (hplace : a.InPlace) (hcov : p.extent.Covers k j)
    (hx : ¬ a.Rewrites line k j) : p.kind.span = 2 := by
  obtain ⟨hp, o, data, hput, ht⟩ := h
  obtain ⟨i, name, pragma, hi, -, -, -, hseek, -⟩ := accepted?_inv hput
  obtain ⟨cursor, rfl⟩ := i.seek_ok hseek
  obtain ⟨hs, hstart, hfirst, hlast⟩ := hplace.touched hi hp (Nat.le_add_right _ _) ht
  have hspan : p.kind.span ≤ 2 := by cases p.kind <;> decide
  have hstop : p.extent.stop = p.extent.start + p.kind.span := rfl
  obtain ⟨hk, hfrom, hto⟩ := hcov
  dsimp only at hfirst hlast
  by_contra hne
  refine hx ⟨_, hput, hk.trans hs, ?_, ?_⟩ <;> simp only [StructInstance.extent] <;> omega

theorem TakenOver.mem_overridePatches (h : a.TakenOver line o data b) (hplace : a.InPlace)
    (hput : a.accepted? line = some (o, data)) (hp : p ∈ b.pending) (hcov : p.extent.Covers k j)
    (hx : (o.extent data.length).Covers k j) : p ∈ a.overridePatches line o := by
  obtain ⟨i, name, pragma, hi, -, -, -, hseek, -⟩ := accepted?_inv hput
  obtain ⟨cursor, rfl⟩ := i.seek_ok hseek
  rw [h.pending, Array.mem_append, Array.mem_filter] at hp
  rcases hp with ⟨hp, htouch⟩ | hp
  · obtain ⟨hk, hfrom, hto⟩ := hcov
    obtain ⟨hk', hfrom', hto'⟩ := hx
    have hbeside := hplace.untouched hi hp (Nat.le_add_right _ _) (by simpa using htouch) (hk.symm.trans hk')
    simp only [StructInstance.extent] at hfrom' hto' hbeside
    omega
  · exact hp

theorem TakenOver.done (h : a.TakenOver line o data b) (hj : j < a.segmentSize k)
    (hx : ¬ (o.extent data.length).Covers k j) (hfree : ∀ q ∈ a.pending, q.extent.Covers k j →
      q.touches o.segment (o.start + o.cursor) (o.start + o.cursor + data.length) = true) :
    b.Done k j ∧ b.byteAt k j = a.byteAt k j := by
  refine ⟨⟨by rw [h.size]; exact hj, fun q hq hcov => ?_⟩, (h.bytes k j).trans (if_neg hx)⟩
  rw [h.pending, Array.mem_append, Array.mem_filter] at hq
  rcases hq with ⟨hq, htouch⟩ | hq
  · rw [hfree q hq hcov] at htouch
    cases htouch
  · exact hx (h.own q hq k j hcov)

end Assembly

theorem Patch.droppedBy_append {log later : List (SourceLine × Assembly)} :
    p.DroppedBy (log ++ later) ↔ p.DroppedBy log ∨ p.DroppedBy later := by
  simp [Patch.DroppedBy, or_and_right, exists_or]

/-- What has become of a byte that a patch waited for, with the lines visited since then: the patch still
waits, it has filled the byte in, or one of the lines has dropped it and the byte is blank. -/
inductive Patch.ByteFate (p : Patch) (start : Assembly) (log : List (SourceLine × Assembly)) (a : Assembly)
    (k j : Nat) : Prop where
  | waits (hp : p ∈ a.pending) (hn : ¬ p.DroppedBy log)
  | filled (hd : a.Done k j) (hn : ¬ p.DroppedBy log) (hfill : p.FillsByte start a k j)
  | dropped (hd : a.Done k j) (hdrop : p.DroppedBy log) (hspan : p.kind.span = 2)
    (hblank : a.byteAt k j = some 0)

/-- What has become of a byte that none of the lines visited since then overrides. -/
structure Assembly.Untouched (start : Assembly) (log : List (SourceLine × Assembly)) (a : Assembly)
    (k j : Nat) : Prop where
  settled : start.Done k j →
    a.Done k j ∧ a.byteAt k j = start.byteAt k j ∧ ∀ p : Patch, p.extent.Covers k j → ¬ p.DroppedBy log
  awaited : ∀ p ∈ start.pending, p.extent.Covers k j → p.ByteFate start log a k j

namespace Assembly.Untouched

variable {start : Assembly} {log later : List (SourceLine × Assembly)}

theorem trans (h : start.Untouched log a k j) (h' : a.Untouched later b k j) (ha : Acts start a) (hb : Acts a b) :
    start.Untouched (log ++ later) b k j := by
  refine ⟨fun hdone => ?_, fun p hp hcov => ?_⟩
  · obtain ⟨hdone, hbyte, hfree⟩ := h.settled hdone
    obtain ⟨hdone', hbyte', hfree'⟩ := h'.settled hdone
    exact ⟨hdone', hbyte'.trans hbyte, fun p hcov hdrop =>
      (Patch.droppedBy_append.1 hdrop).elim (hfree p hcov) (hfree' p hcov)⟩
  have hboth (hn : ¬ p.DroppedBy log) (hn' : ¬ p.DroppedBy later) : ¬ p.DroppedBy (log ++ later) := fun hdrop =>
    (Patch.droppedBy_append.1 hdrop).elim hn hn'
  cases h.awaited p hp hcov with
  | waits hp hn =>
    cases h'.awaited p hp hcov with
    | waits hp hn' => exact .waits hp (hboth hn hn')
    | filled hdone hn' hfill => exact .filled hdone (hboth hn hn') (hfill.after ha)
    | dropped hdone hdrop hspan hblank =>
      exact .dropped hdone (Patch.droppedBy_append.2 (.inr hdrop)) hspan hblank
  | filled hdone hn hfill =>
    obtain ⟨hdone', hbyte, hfree⟩ := h'.settled hdone
    exact .filled hdone' (hboth hn (hfree p hcov)) (hfill.extend hb hbyte)
  | dropped hdone hdrop hspan hblank =>
    obtain ⟨hdone', hbyte, -⟩ := h'.settled hdone
    exact .dropped hdone' (Patch.droppedBy_append.2 (.inl hdrop)) hspan (hbyte.trans hblank)

theorem course (h : Course a [] b) (ha : Arises a) (ho : b.overrun = false) (hd : b.diagnostics = a.diagnostics)
    (hn : ∀ p : Patch, ¬ p.DroppedBy log) : a.Untouched log b k j := by
  refine ⟨fun hdone => ?_, fun p hp hcov => ?_⟩
  · obtain ⟨hend, hbyte⟩ := h.settled ha ho hdone (by simp)
    exact ⟨hend, hbyte, fun p _ => hn p⟩
  · have hspan : p.extent.stop = p.extent.start + p.kind.span := rfl
    have hpos : 0 < p.kind.span := by have := hcov.2; omega
    rcases h.fate ha ho hd hp hpos (by simp) with hwaits | ⟨hdone, hfilled | ⟨-, hm, -⟩⟩
    · exact .waits hwaits (hn p)
    · exact .filled (hdone k j hcov) (hn p) (hfilled.fillsByte hcov)
    · cases hm

theorem takenOver {o : StructInstance} {data : List UInt8} (hput : a.accepted? line = some (o, data))
    (hb : a.TakenOver line o data b) (ha : Arises a) (ho : a.overrun = false) (hx : ¬ a.Rewrites line k j) :
    a.Untouched [(line, a)] b k j := by
  have hbeside : ¬ (o.extent data.length).Covers k j := fun hc => hx ⟨_, hput, hc⟩
  have hdropped {p : Patch} : p.DroppedBy [(line, a)] ↔ a.Drops line p := by simp [Patch.DroppedBy]
  refine ⟨fun hdone => ?_, fun p hp hcov => ?_⟩
  · obtain ⟨hdone', hbyte⟩ := hb.done hdone.1 hbeside fun q hq hcov => absurd hcov (hdone.2 q hq)
    exact ⟨hdone', hbyte, fun p hcov hdrop => hdone.2 p (hdropped.1 hdrop).1 hcov⟩
  cases ht : p.touches o.segment (o.start + o.cursor) (o.start + o.cursor + data.length) with
  | true =>
    have hdrop : a.Drops line p := ⟨hp, o, data, hput, ht⟩
    have hplace := ha.inPlace ho
    obtain ⟨hdone, hbyte⟩ := hb.done (hplace.lt_segmentSize hp hcov) hbeside fun q hq hqcov => by
      rw [hplace.eq_of_covers hq hp hqcov hcov, ht]
    exact .dropped hdone (hdropped.2 hdrop) (hdrop.span_eq hplace hcov hx)
      (hbyte.trans (ha.waitsBlank ho p hp k j hcov))
  | false =>
    refine .waits ?_ fun hdrop => ?_
    · rw [hb.pending, Array.mem_append, Array.mem_filter]
      exact .inl ⟨hp, by rw [ht]; rfl⟩
    · obtain ⟨-, o', data', hput', ht'⟩ := hdropped.1 hdrop
      rw [hput] at hput'
      cases hput'
      rw [ht] at ht'
      cases ht'

theorem visited (h : a.Visited line b) (ha : Arises a) (ho : b.overrun = false)
    (hd : b.diagnostics = a.diagnostics) (hx : ¬ a.Rewrites line k j) : a.Untouched [(line, a)] b k j := by
  cases hput : a.accepted? line with
  | none => exact course (h.plain hput) ha ho hd (by simp [Patch.DroppedBy, Drops, hput])
  | some put =>
    obtain ⟨⟨_, hcourse⟩, htaken⟩ := h.override _ _ hput
    exact takenOver hput (htaken ho) ha (hcourse.overrun ho) hx

end Assembly.Untouched

theorem Stages.becomes {start : Assembly} {log : List (SourceLine × Assembly)} (h : Stages start log a)
    (hs : Arises start) (ho : a.overrun = false) (hd : a.diagnostics = start.diagnostics)
    (hx : ∀ visit ∈ log, ¬ visit.2.Rewrites visit.1 k j) : start.Untouched log a k j := by
  induction h with
  | refl => exact .course (.refl start) hs ho rfl (by simp [Patch.DroppedBy])
  | @between _ a b h hb ih =>
    obtain ⟨hda, hdb⟩ := h.acts.moves.reported.between hb.moves.reported hd
    have hbetween : a.Untouched [] b k j := .course hb (h.arises hs) ho hdb (by simp [Patch.DroppedBy])
    simpa using (ih (hb.overrun ho) hda hx).trans hbetween h.acts ⟨[], hb⟩
  | @visit log a b line h hb ih =>
    obtain ⟨_, hcourse⟩ := hb.acts
    obtain ⟨hda, hdb⟩ := h.acts.moves.reported.between hcourse.moves.reported hd
    have hline := hx (line, a) (mem_append_right _ (mem_singleton_self _))
    exact (ih (hcourse.overrun ho) hda fun visit hm => hx visit (mem_append_left _ hm)).trans
      (.visited hb (h.arises hs) ho hdb hline) h.acts hb.acts

/-! ## How bytes end -/

/-- A byte ends as it is in a state, which is followed by some lines. If a patch waits for it, it ends with
the value of the patch; but if one of the lines drops the patch, it ends blank. Only a patch for a word
is dropped without an override of the byte. -/
structure Assembly.EndsAs (a : Assembly) (after : List (SourceLine × Assembly)) (final : Assembly)
    (k j : Nat) : Prop where
  known : (∀ p ∈ a.pending, ¬ p.extent.Covers k j) → final.byteAt k j = a.byteAt k j
  filled : ∀ p ∈ a.pending, p.extent.Covers k j → ¬ p.DroppedBy after → p.FillsByte a final k j
  dropped : ∀ p ∈ a.pending, p.extent.Covers k j → p.DroppedBy after → p.kind.span = 2 ∧ final.byteAt k j = some 0

theorem Stages.endsAs {final : Assembly} {after : List (SourceLine × Assembly)} (h : Stages a after final)
    (ha : Arises a) (ho : final.overrun = false) (hd : final.diagnostics = a.diagnostics) (hend : final.pending = #[])
    (hj : j < a.segmentSize k) (hx : ∀ visit ∈ after, ¬ visit.2.Rewrites visit.1 k j) : a.EndsAs after final k j := by
  have hbecomes := h.becomes ha ho hd hx
  have hempty {p : Patch} (hp : p ∈ final.pending) : False := by
    rw [hend] at hp
    exact Array.not_mem_empty p hp
  refine ⟨fun hfree => (hbecomes.settled ⟨hj, hfree⟩).2.1, fun p hp hcov hn => ?_, fun p hp hcov hdrop => ?_⟩
  · cases hbecomes.awaited p hp hcov with
    | waits hwaits _ => exact (hempty hwaits).elim
    | filled _ _ hfill => exact hfill
    | dropped _ hdrop _ _ => exact absurd hdrop hn
  · cases hbecomes.awaited p hp hcov with
    | waits hwaits _ => exact (hempty hwaits).elim
    | filled _ hn _ => exact absurd hdrop hn
    | dropped _ _ hspan hblank => exact ⟨hspan, hblank⟩

/-! ## Instances -/

theorem Assembly.Invokes.invoked?_eq_none {d : StructDef} (h : a.Invokes line d) : a.invoked? line = none := by
  obtain ⟨name, hs, hnone, -⟩ := h
  unfold invoked?
  rw [hs]
  dsimp only
  rw [hnone]
  exact ite_self _

theorem Assembly.invoked?_eq_none_of_accepted {put : StructInstance × List UInt8}
    (h : a.accepted? line = some put) : a.invoked? line = none := by
  obtain ⟨i, name, p, -, hs, -⟩ := accepted?_inv h
  unfold invoked?
  rw [hs]

/-- When a program is assembled without a diagnostic and no override was put outside of its instance, every
byte of an instance ends as the lines of the structure or the last override for it left it. A byte for which a
patch waited then ends with the value of the patch, but for one case: an override that comes later and touches
the patch, without being for the byte, drops the patch of the whole word, and the byte ends blank. -/
theorem instance_bytes_end (setup : Setup) (lines : List SourceLine)
    (hd : ((assembleLines lines).run (.new setup)).2.diagnostics = #[])
    (ho : ((assembleLines lines).run (.new setup)).2.overrun = false) :
    let final := ((assembleLines lines).run (.new setup)).2
    ∃ t, Walks (.lines lines) (.new setup) t ((walkProgram lines).run (.new setup)).2 ∧
      ∀ before line a after, t.visits = before ++ (line, a) :: after →
        let b := ((walkSingle none line).run a).2
        (∀ d, a.Invokes line d → ∀ j, a.segmentSize a.lastSegment ≤ j → j < b.segmentSize a.lastSegment →
          (∀ visit ∈ after, ¬ visit.2.Rewrites visit.1 a.lastSegment j) → b.EndsAs after final a.lastSegment j) ∧
        ∀ o data, a.accepted? line = some (o, data) → ∀ j < data.length,
          (∀ visit ∈ after, ¬ visit.2.Rewrites visit.1 o.segment (o.start + o.cursor + j)) →
            b.byteAt o.segment (o.start + o.cursor + j) = data[j]? ∧
            (∀ p ∈ b.pending, p.extent.Covers o.segment (o.start + o.cursor + j) → p ∈ a.overridePatches line o) ∧
            b.EndsAs after final o.segment (o.start + o.cursor + j) := by
  intro final
  obtain ⟨t, ht⟩ := walkProgram_walks setup lines
  have hempty : final.pending = #[] := pending_assembleLines lines (.new setup)
  have hfinal : Stages (.new setup) t.visits final :=
    ((Stages.of_walks ht).between (flushLabel_calm _).history.course).between (resolveAll_course _)
  refine ⟨t, ht, fun before line a after hsplit => ?_⟩
  obtain ⟨c, hbefore, hvisited, hafter⟩ := hfinal.split hsplit
  have ha := hbefore.arises (.new setup)
  obtain ⟨_, hcourse⟩ := hvisited.acts
  obtain ⟨_, hlater⟩ := hafter.acts
  have hoc := hlater.overrun ho
  have hsilent : final.diagnostics = c.diagnostics :=
    ((hbefore.acts.trans hvisited.acts).moves.reported.between hlater.moves.reported hd).2
  have hends {k j : Nat} := hafter.endsAs (j := j) (k := k) (ha.course hcourse) ho hsilent hempty
  intro b
  refine ⟨fun d hinvokes j _ hj hx => ?_, fun o data hput j hj hx => ?_⟩
  · obtain rfl := hvisited.single hinvokes.invoked?_eq_none
    exact hends hj hx
  · obtain rfl := hvisited.single (invoked?_eq_none_of_accepted hput)
    have htaken := (hvisited.override o data hput).2 hoc
    have hcovers : (o.extent data.length).Covers o.segment (o.start + o.cursor + j) :=
      ⟨rfl, Nat.le_add_right _ _, Nat.add_lt_add_left hj _⟩
    have hbyte : b.byteAt o.segment (o.start + o.cursor + j) = data[j]? := by
      refine (htaken.bytes _ _).trans ((if_pos hcovers).trans ?_)
      rw [Nat.add_sub_cancel_left]
    refine ⟨hbyte, fun p hp hcov => ?_, hends ?_ hx⟩
    · exact htaken.mem_overridePatches (ha.inPlace (hcourse.overrun hoc)) hput hp hcov hcovers
    · by_contra hle
      rw [byteAt_of_size_le (Nat.le_of_not_lt hle), getElem?_eq_getElem hj] at hbyte
      cases hbyte

/-- A structure with a word that waits for a label, and an override of its first byte. -/
def linesWithHalfWord : List SourceLine := [⟨⟨0, 0⟩, some "s", some (.statement .structDef), none⟩,
    ⟨⟨0, 1⟩, some "f", some (.pragma (.defw [.symbol ⟨["LATER"], false⟩])), none⟩,
    ⟨⟨0, 2⟩, none, some (.statement .endStruct), none⟩,
    ⟨⟨0, 3⟩, none, some (.invoke "s" []), none⟩,
    ⟨⟨0, 4⟩, none, some (.field (some "f") (.defb [.int 5])), none⟩,
    ⟨⟨0, 5⟩, some "later", some (.op .nop []), none⟩]

@[irreducible] def halfWordDefined : Assembly :=
  ((reporting (defineStruct (some "s") [linesWithHalfWord[1]] linesWithHalfWord[2])).run
    { (new {}).moveTo ⟨0, 0⟩ with opened := none }).2

@[irreducible] def halfWordInvoked : Assembly :=
  ((walkSingle none linesWithHalfWord[3]).run (halfWordDefined.moveTo ⟨0, 3⟩)).2

theorem walks_halfWord : ∃ t b, Walks (.lines linesWithHalfWord) (.new {}) t b ∧
    t.visits = [(linesWithHalfWord[3], halfWordDefined.moveTo ⟨0, 3⟩),
      (linesWithHalfWord[4], halfWordInvoked.moveTo ⟨0, 4⟩),
      (linesWithHalfWord[5],
        ((walkSingle none linesWithHalfWord[4]).run (halfWordInvoked.moveTo ⟨0, 4⟩)).2.moveTo ⟨0, 5⟩)] := by
  have hblock : (Call.lines linesWithHalfWord).next (.new {}) =
      .call (.block linesWithHalfWord[0] .structDef [linesWithHalfWord[1]] linesWithHalfWord[2])
        { (new {}).moveTo ⟨0, 0⟩ with opened := none } fun b => (.lines (linesWithHalfWord.drop 3), b) := rfl
  have hdefined : (Call.block linesWithHalfWord[0] .structDef [linesWithHalfWord[1]] linesWithHalfWord[2]).next
      { (new {}).moveTo ⟨0, 0⟩ with opened := none } = .done halfWordDefined := by
    unfold halfWordDefined
    rfl
  refine ⟨_, _, .call hblock (.done hdefined)
    (.single ?_ rfl ?_ (.single ?_ rfl ?_ (.single ?_ rfl ?_ (.done rfl)))), ?_⟩
  rotate_right
  · unfold halfWordInvoked
    rfl
  all_goals decide +kernel

/-- The override drops the patch of the whole word, and the second byte of the word is blank in the end. -/
theorem instance_bytes_end_halfWord :
    let final := ((assembleLines linesWithHalfWord).run (.new {})).2
    let a := halfWordDefined.moveTo ⟨0, 3⟩
    let b := halfWordInvoked.moveTo ⟨0, 4⟩
    final.diagnostics = #[] ∧ final.overrun = false ∧ final.segments.map (·.bytes) = #[#[5, 0, 0]] ∧
    ∃ t after, Walks (.lines linesWithHalfWord) (.new {}) t ((walkProgram linesWithHalfWord).run (.new {})).2 ∧
      t.visits = (linesWithHalfWord[3], a) :: (linesWithHalfWord[4], b) :: after ∧
      (∃ d, a.Invokes linesWithHalfWord[3] d) ∧
      (∃ p ∈ halfWordInvoked.pending, p.extent = ⟨0, 0, 2⟩ ∧ p.DroppedBy ((linesWithHalfWord[4], b) :: after)) ∧
      halfWordInvoked.EndsAs ((linesWithHalfWord[4], b) :: after) final 0 1 ∧
      ∃ o, b.accepted? linesWithHalfWord[4] = some (o, [5]) ∧ o.extent 1 = ⟨0, 0, 1⟩ ∧
        ((walkSingle none linesWithHalfWord[4]).run b).2.EndsAs after final 0 0 := by
  have hd : ((assembleLines linesWithHalfWord).run (.new {})).2.diagnostics = #[] :=
    Array.isEmpty_iff.1 (by decide +kernel)
  have ho : ((assembleLines linesWithHalfWord).run (.new {})).2.overrun = false := by decide +kernel
  obtain ⟨t, ht, hall⟩ := instance_bytes_end {} linesWithHalfWord hd ho
  obtain ⟨u, c, hwalk, hvisits⟩ := walks_halfWord
  obtain ⟨rfl, -⟩ := ht.deterministic hwalk
  have hinvoked := (hall [] _ _ _ hvisits).1
  have hover := (hall [_] _ _ _ hvisits).2
  have hfound : (((halfWordDefined.moveTo ⟨0, 3⟩).atInvocation linesWithHalfWord[3]).symbols.findStruct?
      "s").isSome = true := by decide +kernel
  obtain ⟨d, hstruct⟩ := isSome_iff_exists.1 hfound
  have hinvokes : (halfWordDefined.moveTo ⟨0, 3⟩).Invokes linesWithHalfWord[3] d :=
    ⟨"s", rfl, isNone_iff_eq_none.1 (by decide +kernel), hstruct⟩
  have hlast : (halfWordDefined.moveTo ⟨0, 3⟩).lastSegment = 0 := by decide +kernel
  have hput : ((halfWordInvoked.moveTo ⟨0, 4⟩).accepted? linesWithHalfWord[4]).map
      (fun put => (put.1.extent 1, put.2)) = some (⟨0, 0, 1⟩, [5]) := by decide +kernel
  obtain ⟨⟨o, data⟩, haccepted, heq⟩ := map_eq_some_iff.1 hput
  obtain ⟨hextent, rfl⟩ := Prod.mk.inj heq
  obtain ⟨hsegment, hstart, -⟩ : o.segment = 0 ∧ o.start + o.cursor = 0 ∧ _ := Extent.mk.inj hextent
  have hfirst : (halfWordInvoked.pending[0]?).map (fun p => (p.extent, p.touches 0 0 1)) =
      some (⟨0, 0, 2⟩, true) := by decide +kernel
  obtain ⟨p, hp, hpatch⟩ := map_eq_some_iff.1 hfirst
  obtain ⟨hword, htouches⟩ := Prod.mk.inj hpatch
  have hwaits : p ∈ halfWordInvoked.pending := Array.mem_of_getElem? hp
  have hdrops : (halfWordInvoked.moveTo ⟨0, 4⟩).Drops linesWithHalfWord[4] p := by
    refine ⟨hwaits, o, _, haccepted, ?_⟩
    rw [hsegment, hstart]
    exact htouches
  have hlater := hover o _ haccepted 0 (by decide) (by rw [hsegment, hstart]; decide +kernel)
  rw [hsegment, hstart] at hlater
  have hends := hinvoked d hinvokes 1 (by decide +kernel) (by decide +kernel) (by decide +kernel)
  have hinstance : ((walkSingle none linesWithHalfWord[3]).run (halfWordDefined.moveTo ⟨0, 3⟩)).2 =
      halfWordInvoked := by
    unfold halfWordInvoked
    rfl
  rw [hinstance, hlast] at hends
  refine ⟨hd, ho, by decide +kernel, t, _, ht, hvisits, ⟨d, hinvokes⟩, ?_, hends, ?_⟩
  · exact ⟨p, hwaits, hword, _, mem_cons_self, hdrops⟩
  · exact ⟨o, haccepted, hextent, hlater.2.2⟩

end SpectrumAsm
