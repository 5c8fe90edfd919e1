/-
What happens to the bytes of segments.

Segments are never removed, never get shorter, and keep their start address from the first byte on (`Grows`).
An override shortens the segment only by the bytes it has put there itself. So the bytes a patch is meant for
are still there when it is settled.
-/
import SpectrumAsm.Proofs.Sweeping

namespace SpectrumAsm

open Array Option Assembly

variable {a b : Assembly} {offset : Nat} {bytes : List UInt8}

/-! ## Bytes overwritten -/

namespace Segment

@[simp] theorem start_patch (s : Segment) (offset : Nat) (bytes : List UInt8) :
    (s.patch offset bytes).start = s.start := by
  unfold patch
  split <;> rfl

theorem foldl_setIfInBounds (bytes : List UInt8) (offset : Nat) (old : Array UInt8) :
    ((bytes.zipIdx offset).foldl (fun a (b, i) => a.setIfInBounds i b) old).size = old.size ∧
      ∀ i, offset + bytes.length ≤ old.size →
        ((bytes.zipIdx offset).foldl (fun a (b, i) => a.setIfInBounds i b) old)[i]? =
          if offset ≤ i ∧ i < offset + bytes.length then bytes[i - offset]? else old[i]? := by
  induction bytes generalizing offset old with
  | nil =>
    refine ⟨rfl, fun i _ => ?_⟩
    rw [if_neg (by simp only [List.length_nil]; omega)]
    rfl
  | cons b bytes ih =>
    obtain ⟨hsize, hget⟩ := ih (offset + 1) (old.setIfInBounds offset b)
    rw [List.zipIdx_cons, List.foldl_cons]
    refine ⟨by rw [hsize, size_setIfInBounds], fun i hin => ?_⟩
    rw [List.length_cons] at hin ⊢
    rw [hget i (by rw [size_setIfInBounds]; omega), getElem?_setIfInBounds]
    by_cases hi : offset = i
    · subst hi
      rw [if_neg (by omega), if_pos rfl, if_pos (by omega), if_pos (by omega)]
      simp
    · rw [if_neg hi]
      by_cases hr : offset + 1 ≤ i ∧ i < offset + 1 + bytes.length
      · rw [if_pos hr, if_pos (by omega)]
        have hsub : i - offset = (i - (offset + 1)) + 1 := by omega
        rw [hsub, List.getElem?_cons_succ]
      · rw [if_neg hr, if_neg (by omega)]

@[simp] theorem size_patch (s : Segment) (offset : Nat) (bytes : List UInt8) :
    (s.patch offset bytes).bytes.size = s.bytes.size := by
  unfold patch
  split
  · exact (foldl_setIfInBounds bytes offset s.bytes).1
  · rfl

theorem getElem?_patch (s : Segment) (h : offset + bytes.length ≤ s.bytes.size) (i : Nat) :
    (s.patch offset bytes).bytes[i]? =
      if offset ≤ i ∧ i < offset + bytes.length then bytes[i - offset]? else s.bytes[i]? := by
  unfold patch
  rw [if_pos h]
  exact (foldl_setIfInBounds bytes offset s.bytes).2 i h

end Segment

namespace Assembly

def byteAt (a : Assembly) (segment i : Nat) : Option UInt8 := a.segments[segment]?.bind fun s => s.bytes[i]?

theorem byteAt_congr (h : b.segments = a.segments) (segment i : Nat) : b.byteAt segment i = a.byteAt segment i := by
  unfold byteAt
  rw [h]

theorem segmentSize_congr (h : b.segments = a.segments) (k : Nat) : b.segmentSize k = a.segmentSize k := by
  unfold segmentSize
  rw [h]

theorem byteAt_patchBytes (a : Assembly) {segment : Nat}
    (h : offset + bytes.length ≤ a.segmentSize segment) (k i : Nat) : (a.patchBytes segment offset bytes).byteAt k i =
      if k = segment ∧ offset ≤ i ∧ i < offset + bytes.length then bytes[i - offset]? else a.byteAt k i := by
  unfold byteAt patchBytes
  unfold segmentSize at h
  rw [getElem?_modify]
  by_cases hk : segment = k
  · subst hk
    rw [if_pos rfl]
    cases hs : a.segments[segment]? with
    | none =>
      rw [hs] at h
      simp only [map_none, getD_none] at h
      rw [if_neg (by omega)]
      rfl
    | some s =>
      rw [hs] at h
      simp only [map_some, bind_some, true_and]
      exact s.getElem?_patch h i
  · rw [if_neg hk, if_neg (by omega)]

theorem byteAt_patchBytes_other (a : Assembly) {segment : Nat} {k i : Nat}
    (h : ¬ (k = segment ∧ offset ≤ i ∧ i < offset + bytes.length)) :
    (a.patchBytes segment offset bytes).byteAt k i = a.byteAt k i := by
  unfold byteAt patchBytes
  rw [getElem?_modify]
  split
  · next hk =>
    cases a.segments[k]? with
    | none => rfl
    | some s =>
      simp only [map_some, bind_some]
      by_cases hin : offset + bytes.length ≤ s.bytes.size
      · rw [s.getElem?_patch hin, if_neg fun hi => h ⟨hk.symm, hi⟩]
      · rw [Segment.patch, if_neg hin]
  · rfl

/-! ## Code put into a segment -/

theorem openSegment_of_size_pos (h : 0 < a.segments.size) : a.openSegment = a := by
  unfold openSegment
  rw [if_neg]
  simp only [Array.isEmpty_iff]
  intro he
  simp [he] at h

theorem openSegment_of_empty (h : a.segments = #[]) :
    a.openSegment = { a with segments := #[{ start := a.setup.options.defaultStart }] } := by
  unfold openSegment
  rw [if_pos (by simp [h])]

section
variable (a : Assembly)

theorem openSegment_eq : ∃ segments, a.openSegment = { a with segments } := by
  unfold openSegment
  split
  · exact ⟨_, rfl⟩
  · exact ⟨a.segments, rfl⟩

theorem setOrigin_eq (start : UInt16) : ∃ segments, a.setOrigin start = { a with segments } := by
  unfold setOrigin
  split
  · split
    · exact ⟨_, rfl⟩
    · exact ⟨_, rfl⟩
  · exact ⟨_, rfl⟩

@[simp] theorem lastSegment_openSegment : a.openSegment.lastSegment = a.lastSegment := by
  by_cases h : a.segments = #[]
  · rw [openSegment_of_empty h]
    simp [lastSegment, h]
  · rw [openSegment_of_size_pos (size_pos_iff.2 h)]

@[simp] theorem segmentSize_openSegment (k : Nat) : a.openSegment.segmentSize k = a.segmentSize k := by
  by_cases h : a.segments = #[]
  · rw [openSegment_of_empty h]
    unfold segmentSize
    rw [h]
    cases k <;> rfl
  · rw [openSegment_of_size_pos (size_pos_iff.2 h)]

@[simp] theorem stop_openSegment : a.openSegment.stop = a.stop := by
  by_cases h : a.segments = #[]
  · rw [openSegment_of_empty h]
    simp [stop, h, Segment.stop]
  · rw [openSegment_of_size_pos (size_pos_iff.2 h)]

end

theorem openSegment_segments_congr (hs : b.segments = a.segments) (ht : b.setup = a.setup) :
    b.openSegment.segments = a.openSegment.segments := by
  unfold openSegment
  rw [hs, ht]
  split
  · rfl
  · exact hs

/-- The patch for a hole in code that is put behind `base` bytes of the last segment. -/
def patchFor (a : Assembly) (base : Nat) (hole : PatchKind × Nat × Expr) : Patch where
  kind := hole.1
  segment := a.lastSegment
  offset := base + hole.2.1
  expr := hole.2.2
  target := none
  scope := a.symbols.top?
  module := a.symbols.current
  origin := a.origin
  pos := a.pos

/-- The state after code was put behind `base` bytes of the last segment. -/
def appended (a : Assembly) (base : Nat) (code : Code) : Assembly := { a with
    segments := a.segments.modify a.lastSegment fun s => { s with bytes := s.bytes ++ code.bytes }
    pending := a.pending ++ (code.holes.map (a.patchFor base)).toArray }

theorem patchFor_openSegment (a : Assembly) (base : Nat) : a.openSegment.patchFor base = a.patchFor base := by
  obtain ⟨_, h⟩ := a.openSegment_eq
  funext hole
  simp only [patchFor, lastSegment_openSegment]
  rw [h]

theorem foldl_addPatch (a : Assembly) (segments : Array Segment) (base : Nat)
    (holes : List (PatchKind × Nat × Expr)) (queue : Array Patch) :
    holes.foldl (fun a' (kind, offset, e) => a'.addPatch kind a.lastSegment (base + offset) e none)
        { a with segments, pending := queue } =
      { a with segments, pending := queue ++ (holes.map (a.patchFor base)).toArray } := by
  induction holes generalizing queue with
  | nil => simp
  | cons hole holes ih =>
    have hqueue : queue ++ ((hole :: holes).map (a.patchFor base)).toArray =
        queue.push (a.patchFor base hole) ++ (holes.map (a.patchFor base)).toArray := by simp
    rw [hqueue]
    exact ih (queue.push (a.patchFor base hole))

theorem emit_cases (a : Assembly) (code : Code) : (code.bytes = #[] ∧ a.emit code = (.ok (), a)) ∨
      (memoryEnd < a.openSegment.stop + code.bytes.size ∧ a.emit code = (.error .addressOverflow, a.openSegment)) ∨
      ∃ s, a.openSegment.segments.back? = some s ∧ s.stop + code.bytes.size ≤ memoryEnd ∧
        a.emit code = (.ok (), a.openSegment.appended s.bytes.size code) := by
  unfold emit
  split
  · next h => exact .inl ⟨by simpa using h, rfl⟩
  refine .inr ?_
  dsimp only
  split
  · next hfull => exact .inl ⟨hfull, rfl⟩
  next hfits =>
  obtain ⟨s, hs⟩ : ∃ s, a.openSegment.segments.back? = some s := by
    by_cases h : a.segments = #[]
    · rw [openSegment_of_empty h]
      exact ⟨_, rfl⟩
    · have hpos : 0 < a.segments.size := size_pos_iff.2 h
      rw [openSegment_of_size_pos hpos]
      exact ne_none_iff_exists'.1 fun hn => h (back?_eq_none_iff.1 hn)
  refine .inr ⟨s, hs, ?_, ?_⟩
  · unfold stop at hfits
    rw [hs] at hfits
    exact Nat.not_lt.1 hfits
  · rw [hs]
    exact congrArg (Prod.mk _) (foldl_addPatch a.openSegment _ _ _ _)

theorem emit_eq (a : Assembly) (code : Code) : ∃ segments pending, (a.emit code).2 = { a with segments, pending } := by
  obtain ⟨segments, hopen⟩ := a.openSegment_eq
  rcases a.emit_cases code with ⟨-, h⟩ | ⟨-, h⟩ | ⟨s, -, -, h⟩ <;> rw [h]
  · exact ⟨a.segments, a.pending, rfl⟩
  · exact ⟨segments, a.pending, hopen⟩
  · rw [hopen]
    exact ⟨_, _, rfl⟩

theorem emit_ok {code : Code} (h : a.emit code = (.ok (), b)) (hne : code.bytes ≠ #[]) :
    b.pending = a.pending ++ (code.holes.map (a.patchFor (a.segmentSize a.lastSegment))).toArray ∧
      ∃ s, a.openSegment.segments[a.lastSegment]? = some s ∧ s.bytes.size = a.segmentSize a.lastSegment ∧
        b.segments[a.lastSegment]? = some { s with bytes := s.bytes ++ code.bytes } := by
  rcases a.emit_cases code with ⟨he, -⟩ | ⟨-, he⟩ | ⟨s, hback, -, he⟩
  · exact absurd he hne
  · rw [he] at h
    cases h
  rw [he] at h
  cases h
  have hs : a.openSegment.segments[a.lastSegment]? = some s := by
    rw [← hback, back?_eq_getElem?, ← lastSegment_openSegment]
    rfl
  have hsize : s.bytes.size = a.segmentSize a.lastSegment := by
    rw [← segmentSize_openSegment]
    unfold segmentSize
    rw [hs]
    rfl
  refine ⟨?_, s, hs, hsize, ?_⟩
  · obtain ⟨_, ho⟩ := a.openSegment_eq
    unfold appended
    rw [patchFor_openSegment, hsize]
    rw [ho]
  · unfold appended
    rw [lastSegment_openSegment]
    rw [getElem?_modify, if_pos rfl, hs]
    rfl

theorem lastSegment_emit (a : Assembly) (code : Code) : (a.emit code).2.lastSegment = a.lastSegment := by
  rcases a.emit_cases code with ⟨-, h⟩ | ⟨-, h⟩ | ⟨s, -, -, h⟩ <;> rw [h]
  · exact a.lastSegment_openSegment
  · refine Eq.trans ?_ a.lastSegment_openSegment
    simp [lastSegment, appended]

theorem moveOverride_eq (a : Assembly) (i : StructInstance) (source first : Nat) :
    ∃ segments pending opened overrun, (a.moveOverride i source first).2 =
      { a with segments, pending, opened, overrun } := by
  unfold moveOverride
  dsimp only
  split
  · exact ⟨_, _, _, _, rfl⟩
  · split
    · exact ⟨_, _, _, _, rfl⟩
    · exact ⟨_, _, _, _, rfl⟩

theorem override_eq {code : Code} {result : Except Fault Unit} (he : a.emit code = (result, b))
    (i : StructInstance) (source first : Nat) : ∃ segments pending opened overrun,
      (b.moveOverride i source first).2 = { a with segments, pending, opened, overrun } := by
  obtain ⟨_, _, hb⟩ := a.emit_eq code
  obtain ⟨_, _, _, _, hm⟩ := b.moveOverride_eq i source first
  rw [he] at hb
  dsimp only at hb
  exact ⟨_, _, _, _, by rw [hm, hb]⟩

theorem pending_moveOverride (a : Assembly) (i : StructInstance) (source first : Nat) :
    let b := (a.moveOverride i source first).2
    b.pending = a.pending.extract 0 first ∨ ∃ start stop target,
      b.pending = ((a.pending.extract 0 first).filter fun p => !p.touches i.segment start stop) ++
        (a.pending.extract first a.pending.size).map (·.moveToField source target) := by
  unfold moveOverride
  dsimp only
  split
  · exact .inl rfl
  · split <;> exact .inr ⟨_, _, _, rfl⟩

end Assembly

theorem Asked.patchFor (h : Asked a b) (base : Nat) (hole : PatchKind × Nat × Expr) :
    b.patchFor base hole = a.patchFor base hole := by
  obtain ⟨_, _, rfl⟩ := h
  rfl

/-! ## Growing segments -/

/-- A segment and what it has become: it has not got shorter, and it has not moved once there were
bytes in it. -/
def Segment.Grows (s s' : Segment) : Prop := s.bytes.size ≤ s'.bytes.size ∧ (0 < s.bytes.size → s'.start = s.start)

/-- Every segment is still there and has grown at most. -/
def Grows (a b : Assembly) : Prop :=
  ∀ (k : Nat) (s : Segment), a.segments[k]? = some s → ∃ s', b.segments[k]? = some s' ∧ s.Grows s'

namespace Grows

variable {c : Assembly}

theorem ofSegments (h : b.segments = a.segments) : Grows a b := fun k s hs =>
  ⟨s, by rw [h, hs], Nat.le_refl _, fun _ => rfl⟩

theorem refl (a : Assembly) : Grows a a := ofSegments rfl

theorem trans (h : Grows a b) (h' : Grows b c) : Grows a c := by
  intro k s hs
  obtain ⟨s₁, h₁, hsize, hstart⟩ := h k s hs
  obtain ⟨s₂, h₂, hsize', hstart'⟩ := h' k s₁ h₁
  exact ⟨s₂, h₂, Nat.le_trans hsize hsize', fun hpos => (hstart' (by omega)).trans (hstart hpos)⟩

theorem segmentSize_le (h : Grows a b) (k : Nat) : a.segmentSize k ≤ b.segmentSize k := by
  unfold segmentSize
  cases hs : a.segments[k]? with
  | none => exact Nat.zero_le _
  | some s =>
    obtain ⟨s', hs', hsize, -⟩ := h k s hs
    rw [hs']
    exact hsize

theorem modify {k : Nat} {f : Segment → Segment} (hb : b.segments = a.segments.modify k f)
    (hf : ∀ s, a.segments[k]? = some s → s.Grows (f s)) : Grows a b := by
  intro j s hs
  rw [hb, getElem?_modify, hs]
  by_cases hj : k = j
  · subst hj
    exact ⟨f s, by simp, hf s hs⟩
  · exact ⟨s, by simp [hj], Nat.le_refl _, fun _ => rfl⟩

theorem push {s : Segment} (hb : b.segments = a.segments.push s) : Grows a b := by
  intro k t ht
  have hk : k < a.segments.size := (Array.getElem?_eq_some_iff.1 ht).1
  exact ⟨t, by rw [hb, getElem?_push_lt hk]; exact (getElem?_eq_getElem hk).symm.trans ht,
    Nat.le_refl _, fun _ => rfl⟩

theorem openSegment (a : Assembly) : Grows a a.openSegment := by
  by_cases h : a.segments = #[]
  · rw [openSegment_of_empty h]
    exact push (by rw [h]; rfl)
  · rw [openSegment_of_size_pos (size_pos_iff.2 h)]
    exact refl a

theorem emit (a : Assembly) (code : Code) : Grows a (a.emit code).2 := by
  rcases a.emit_cases code with ⟨-, h⟩ | ⟨-, h⟩ | ⟨s, -, -, h⟩ <;> rw [h]
  · exact refl a
  · exact openSegment a
  · refine (openSegment a).trans (modify (f := fun s => { s with bytes := s.bytes ++ code.bytes }) rfl
      fun s _ => ⟨?_, fun _ => rfl⟩)
    rw [size_append]
    omega

theorem setOrigin (a : Assembly) (start : UInt16) : Grows a (a.setOrigin start) := by
  unfold Assembly.setOrigin
  split
  · next s hs =>
    split
    · next hempty =>
      refine modify (f := fun s => { s with start }) rfl fun t ht => ⟨Nat.le_refl _, fun hpos => ?_⟩
      have hst : a.segments[a.lastSegment]? = some s := by
        rw [← hs, back?_eq_getElem?]
        rfl
      rw [hst] at ht
      cases ht
      rw [isEmpty_iff_size_eq_zero] at hempty
      omega
    · exact push rfl
  · exact push rfl

theorem patchBytes (a : Assembly) (segment offset : Nat) (bytes : List UInt8) :
    Grows a (a.patchBytes segment offset bytes) :=
  modify (f := fun s => s.patch offset bytes) rfl fun s _ => ⟨by simp, fun _ => by simp⟩

instance : IsPreorder Assembly Grows where
  refl := refl
  trans _ _ _ := trans

theorem settling : Settling Grows where
  asked h := ofSegments h.segments
  reportAt _ _ _ := ofSegments rfl
  assign _ _ _ _ := ofSegments rfl
  setEntries _ _ _ := ofSegments rfl
  patchBytes := patchBytes
  setPending _ _ := ofSegments rfl

theorem cutSegment (h : Grows a b) (k : Nat) : Grows a (b.cutSegment k (a.segmentSize k)) := by
  intro j s hs
  obtain ⟨s', hs', hsize, hstart⟩ := h j s hs
  unfold Assembly.cutSegment
  rw [getElem?_modify, hs']
  by_cases hj : k = j
  · subst hj
    rw [if_pos rfl]
    refine ⟨_, rfl, ?_, hstart⟩
    unfold segmentSize
    rw [hs]
    simp only [map_some, getD_some, size_extract]
    omega
  · rw [if_neg hj]
    exact ⟨s', rfl, hsize, hstart⟩

theorem moveOverride (a : Assembly) (i : StructInstance) (source first : Nat) :
    Grows (a.cutSegment i.segment source) (a.moveOverride i source first).2 := by
  unfold Assembly.moveOverride
  dsimp only
  split
  · exact ofSegments rfl
  · split
    · exact patchBytes (a.cutSegment i.segment source) _ _ _
    · exact ofSegments rfl

end Grows

theorem Settles.rest {p : Patch} {o : Settlement} (h : Settles a p o b) :
    b.setup = a.setup ∧ b.opened = a.opened ∧ b.overrun = a.overrun ∧ b.lastSegment = a.lastSegment := by
  have hrest : Settling (Unchanged fun a => (a.setup, a.opened, a.overrun, a.lastSegment)) := {
    asked := by
      rintro a _ ⟨_, _, rfl⟩
      rfl
    reportAt := fun _ _ _ => rfl
    assign := fun _ _ _ _ => rfl
    setEntries := fun _ _ _ => rfl
    patchBytes := fun _ _ _ _ => by simp [Unchanged, patchBytes, lastSegment]
    setPending := fun _ _ => rfl }
  simpa [Unchanged] using hrest.settles h

theorem reportWaiting_noted (a : Assembly) (p : Patch) : Noted a (a.reportWaiting p) := by
  unfold reportWaiting
  rcases h : a.evalAt p.place p.expr with ⟨fault | v | names, b⟩ <;>
    exact (Noted.ofAsked (.ofEvalAt h)).trans (.reportAt _ _ _)

theorem Move.grows (h : Move a b) : Grows a b := by
  cases h with
  | note h => exact .ofSegments h.segments
  | openSegment => exact .openSegment a
  | emit _ => exact .emit a _
  | setOrigin _ start => exact .setOrigin a start
  | displace d =>
    exact .modify (f := fun s => { s with displacement := some d }) rfl fun s _ =>
      ⟨Nat.le_refl _, fun _ => rfl⟩
  | @awaitEqu _ _ label _ _ hd =>
    refine .ofSegments ?_
    rcases a.define_cases label .equ none with ⟨fault, h⟩ | ⟨-, h⟩ <;> rw [h] at hd <;> cases hd
    rfl
  | @override b i code _ _ _ he =>
    have hemit := Grows.emit a code
    rw [he] at hemit
    exact (hemit.cutSegment i.segment).trans (.moveOverride b i _ _)
  | settle _ h =>
    obtain ⟨o, hs⟩ := settles_of_tryPatch h
    exact (Grows.settling.settles hs).trans (.ofSegments rfl)
  | giveUp _ => exact .ofSegments (reportWaiting_noted a _).segments
  | _ => exact .ofSegments rfl

theorem Moves.grows (h : Moves a b) : Grows a b := by
  induction h with
  | refl => exact .refl a
  | tail _ hm ih => exact ih.trans hm.grows

end SpectrumAsm
