/-
Where waiting patches lie.

A patch has its bytes inside its segment, and no two waiting patches fill the same byte: an override drops the
patches of the bytes it takes over. It would not notice a branch, which is found by its opcode, one byte in front
of the byte it fills; but no branch waits in an instance or behind it.
-/
import SpectrumAsm.Proofs.Actions

namespace SpectrumAsm

open List Assembly

variable {a b : Assembly} {code : Code} {p : Patch} {xs : List Extent} {i : StructInstance}

/-! ## The bytes of a patch -/

@[simp] theorem PatchKind.lead_inField (kind : PatchKind) : kind.inField.lead = kind.lead := by
  cases kind <;> rfl

@[simp] theorem PatchKind.span_inField (kind : PatchKind) : kind.inField.span = kind.span := by
  cases kind <;> rfl

def Patch.extent (p : Patch) : Extent := ⟨p.segment, p.offset + p.kind.lead, p.offset + p.kind.lead + p.kind.span⟩

namespace Code.Built

variable {c : Code}

theorem holes_ordered (h : c.Built a) : c.holes.Pairwise fun x y => x.2.1 + x.1.lead + x.1.span ≤ y.2.1 := by
  have hsnoc {c : Code} (hc : c.Built a) (ih : c.holes.Pairwise fun x y =>
      x.2.1 + x.1.lead + x.1.span ≤ y.2.1) (kind : PatchKind) (e : Expr) :
      (c.addHole kind e).holes.Pairwise fun x y => x.2.1 + x.1.lead + x.1.span ≤ y.2.1 := by
    rw [holes_addHole, pairwise_append]
    refine ⟨ih, pairwise_singleton _ _, fun x hx y hy => ?_⟩
    obtain rfl := mem_singleton.1 hy
    exact (hc.hole hx).inside
  induction h with
  | nil => exact Pairwise.nil
  | bytes bs _ ih => exact ih
  | operand size hc _ ih => exact hsnoc hc ih size.kind _
  | branch opcode hc _ ih => exact hsnoc hc ih .branch _

theorem patches_apart (h : c.Built a) (base : Nat) :
    (c.holes.map (a.patchFor base)).Pairwise fun p q => p.extent.Apart q.extent := by
  rw [pairwise_map]
  refine h.holes_ordered.imp fun {x y} hxy => ?_
  rw [Extent.apart_iff]
  intro _ _ _
  left
  show base + x.2.1 + x.1.lead + x.1.span ≤ base + y.2.1 + y.1.lead
  omega

end Code.Built

theorem Assembly.extent_patchFor_inField (a : Assembly) (base : Nat) (hole : PatchKind × Nat × Expr) :
    (a.patchFor base (hole.1.inField, hole.2)).extent = (a.patchFor base hole).extent := by
  simp [Patch.extent, patchFor]

/-! ## Overrides -/

namespace Assembly

theorem getElem?_bytesFrom (a : Assembly) (k n j : Nat) : (a.bytesFrom k n)[j]? = a.byteAt k (n + j) := by
  unfold bytesFrom byteAt
  cases a.segments[k]? with
  | none => rfl
  | some s =>
    simp only [Option.map_some, Option.getD_some, Option.bind_some, Array.getElem?_toList, Array.getElem?_extract]
    split
    · rfl
    · rw [Array.getElem?_eq_none (by omega)]

theorem byteAt_cutSegment (a : Assembly) (k n segment i : Nat) : (a.cutSegment k n).byteAt segment i =
      if segment = k ∧ n ≤ i then none else a.byteAt segment i := by
  unfold cutSegment byteAt
  rw [Array.getElem?_modify]
  by_cases hk : k = segment
  · subst hk
    rw [if_pos rfl]
    cases a.segments[k]? with
    | none => simp
    | some s =>
      simp only [Option.map_some, Option.bind_some, true_and, Array.getElem?_extract]
      split
      · next hi => rw [if_neg (by omega), Nat.zero_add]
      · next hi =>
        split
        · rfl
        · exact (Array.getElem?_eq_none (by omega)).symm
  · rw [if_neg hk, if_neg (by omega)]

theorem segmentSize_cutSegment (a : Assembly) (k n segment : Nat) : (a.cutSegment k n).segmentSize segment =
      if segment = k then min n (a.segmentSize k) else a.segmentSize segment := by
  unfold cutSegment segmentSize
  rw [Array.getElem?_modify]
  by_cases hk : k = segment
  · subst hk
    rw [if_pos rfl, if_pos rfl]
    cases a.segments[k]? with
    | none => simp
    | some s => simp
  · rw [if_neg hk, if_neg (Ne.symm hk)]

@[simp] theorem segmentSize_patchBytes (a : Assembly) (segment offset : Nat) (bytes : List UInt8)
    (k : Nat) : (a.patchBytes segment offset bytes).segmentSize k = a.segmentSize k := by
  unfold patchBytes segmentSize
  rw [← Array.getElem?_map, map_modify_of_eq fun s => by simp, Array.getElem?_map]

end Assembly

theorem Emitted.bytesFrom (h : Emitted a code b) :
    b.bytesFrom a.lastSegment (a.segmentSize a.lastSegment) = code.bytes.toList := by
  apply ext_getElem?
  intro j
  rw [getElem?_bytesFrom, h.bytes, if_pos ⟨rfl, Nat.le_add_right _ _⟩,
    Nat.add_sub_cancel_left, Array.getElem?_toList]

theorem Emitted.byteAt_cut (h : Emitted a code b) (k j : Nat) :
    (b.cutSegment a.lastSegment (a.segmentSize a.lastSegment)).byteAt k j = a.byteAt k j := by
  rw [byteAt_cutSegment, h.bytes]
  split
  · next hend => rw [hend.1, byteAt_of_size_le hend.2]
  · next hend =>
    rw [if_neg]
    rintro ⟨rfl, hle⟩
    exact hend ⟨rfl, hle⟩

theorem Emitted.segmentSize_cut (h : Emitted a code b) (k : Nat) :
    (b.cutSegment a.lastSegment (a.segmentSize a.lastSegment)).segmentSize k = a.segmentSize k := by
  rw [segmentSize_cutSegment, h.size, h.size]
  split
  · next hk =>
    subst hk
    omega
  · next hk => omega

theorem Emitted.map_moveToField (h : Emitted a code b) (target : Nat) :
    (b.pending.extract a.pending.size b.pending.size).map (·.moveToField (a.segmentSize a.lastSegment) target) =
      (code.holes.map fun hole => a.patchFor target (hole.1.inField, hole.2)).toArray := by
  rw [h.later, map_toArray, map_map]
  congr 1
  refine map_congr_left fun hole _ => ?_
  simp only [Function.comp_apply, Patch.moveToField, patchFor, Patch.mk.injEq, true_and, and_true]
  omega

/-- What has changed when an override with code was accepted, wherever its bytes went: the patches of the
bytes it covers were replaced by those that came with the code, and the cursor went on. -/
structure Accepted (a : Assembly) (i : StructInstance) (code : Code) (b : Assembly) : Prop where
  pending : b.pending = (a.pending.filter fun p =>
      !p.touches i.segment (i.start + i.cursor) (i.start + i.cursor + code.bytes.size)) ++
    (code.holes.map fun hole =>
      a.patchFor (i.start + i.cursor) (hole.1.inField, hole.2)).toArray
  size : ∀ k, b.segmentSize k = a.segmentSize k
  opened : b.opened = some { i with cursor := i.cursor + code.bytes.size }
  symbols : b.symbols = a.symbols

/-- What has changed when a field of an instance was overridden with code: its bytes, and the patches
of these bytes, which were replaced by those that came with the code. -/
structure Overridden (a : Assembly) (i : StructInstance) (code : Code) (b : Assembly) : Prop
    extends Accepted a i code b where
  fits : i.start + i.cursor + code.bytes.size ≤ a.segmentSize i.segment
  bytes : ∀ k j, b.byteAt k j = if k = i.segment ∧ i.start + i.cursor ≤ j ∧
      j < i.start + i.cursor + code.bytes.size then code.bytes[j - (i.start + i.cursor)]?
    else a.byteAt k j

section
variable {c : Assembly} (hin : i.segment = a.lastSegment) (h : Emitted a code b)
include hin h

/-- An override that was put behind the code is refused, or moved into the bytes that are there, or it
does not lie among them. -/
theorem Emitted.moveOverride_cases {outcome : Except Fault Unit}
    (hm : b.moveOverride i (a.segmentSize i.segment) a.pending.size = (outcome, c)) :
    (i.size < i.cursor + code.bytes.size ∧ ∃ fault, outcome = .error fault) ∨
      i.cursor + code.bytes.size ≤ i.size ∧ outcome = .ok () ∧ ((Overridden a i code c ∧ c.overrun = a.overrun) ∨
          Accepted a i code c ∧ a.segmentSize i.segment < i.start + i.cursor + code.bytes.size ∧
            c.overrun = true ∧ ∀ k j, c.byteAt k j = a.byteAt k j) := by
  have hbytes : b.bytesFrom i.segment (a.segmentSize i.segment) = code.bytes.toList := by
    rw [hin]
    exact h.bytesFrom
  have hcutAt (k j : Nat) : (b.cutSegment i.segment (a.segmentSize i.segment)).byteAt k j = a.byteAt k j := by
    rw [hin]
    exact h.byteAt_cut k j
  have hcutSize (k : Nat) : (b.cutSegment i.segment (a.segmentSize i.segment)).segmentSize k = a.segmentSize k := by
    rw [hin]
    exact h.segmentSize_cut k
  have hlater : (b.pending.extract a.pending.size b.pending.size).map
      (·.moveToField (a.segmentSize i.segment) (i.start + i.cursor)) = (code.holes.map fun hole =>
          a.patchFor (i.start + i.cursor) (hole.1.inField, hole.2)).toArray := by
    rw [hin]
    exact h.map_moveToField _
  have hpending {pending : Array Patch} (hp : pending = (b.pending.extract 0 a.pending.size).filter (fun p =>
          !p.touches i.segment (i.start + i.cursor) (i.start + i.cursor + code.bytes.size)) ++
        (b.pending.extract a.pending.size b.pending.size).map
          (·.moveToField (a.segmentSize i.segment) (i.start + i.cursor))) :
      pending = (a.pending.filter fun p =>
          !p.touches i.segment (i.start + i.cursor) (i.start + i.cursor + code.bytes.size)) ++
        (code.holes.map fun hole => a.patchFor (i.start + i.cursor) (hole.1.inField, hole.2)).toArray := by
    rw [hp, h.earlier, hlater]
  obtain ⟨_, _, hkept⟩ := h.kept
  have hsymbols : b.symbols = a.symbols := by rw [hkept]
  have hoverrun : b.overrun = a.overrun := by rw [hkept]
  unfold moveOverride at hm
  dsimp only at hm
  rw [hbytes, Array.length_toList] at hm
  split at hm
  · next hover =>
    cases hm
    exact .inl ⟨hover, _, rfl⟩
  next hsize =>
  refine .inr ⟨by omega, ?_⟩
  split at hm
  · next hle =>
    cases hm
    have hinside : i.start + i.cursor + code.bytes.toList.length ≤
        (b.cutSegment i.segment (a.segmentSize i.segment)).segmentSize i.segment := by
      rw [hcutSize, Array.length_toList]
      exact hle
    refine ⟨rfl, .inl ⟨⟨⟨hpending rfl, fun k => ?_, rfl, hsymbols⟩, hle, fun k j => ?_⟩, hoverrun⟩⟩
    · exact (segmentSize_patchBytes _ _ _ _ k).trans (hcutSize k)
    · refine (byteAt_patchBytes _ hinside k j).trans ?_
      rw [hcutAt, Array.length_toList, Array.getElem?_toList]
  · next hle =>
    cases hm
    exact ⟨rfl, .inr ⟨⟨hpending rfl, hcutSize, rfl, hsymbols⟩, by omega, rfl, hcutAt⟩⟩

section
variable (hm : b.moveOverride i (a.segmentSize i.segment) a.pending.size = (.ok (), c))
include hm

theorem Emitted.accepted : Accepted a i code c := by
  rcases h.moveOverride_cases hin hm with ⟨-, _, h⟩ | ⟨-, -, h | h⟩
  · cases h
  · exact h.1.toAccepted
  · exact h.1

theorem Emitted.overridden (ho : c.overrun = false) : Overridden a i code c := by
  rcases h.moveOverride_cases hin hm with ⟨-, _, h⟩ | ⟨-, -, h | h⟩
  · cases h
  · exact h.1
  · rw [h.2.2.1] at ho
    cases ho

end

end

/-! ## What is never forgotten -/

theorem Move.overrun (h : Move a b) (ho : b.overrun = false) : a.overrun = false := by
  cases h with
  | note h => exact h.overrun ▸ ho
  | openSegment =>
    obtain ⟨_, h⟩ := a.openSegment_eq
    rwa [h] at ho
  | @emit code _ =>
    obtain ⟨_, _, h⟩ := a.emit_eq code
    rwa [h] at ho
  | setOrigin _ start =>
    obtain ⟨_, h⟩ := a.setOrigin_eq start
    rwa [h] at ho
  | awaitEqu _ hd =>
    obtain rfl := define_ok hd
    exact ho
  | @override b i code _ _ _ he =>
    obtain ⟨_, _, h⟩ := a.emit_eq code
    rw [he] at h
    dsimp only at h
    have hb : b.overrun = false := by
      unfold moveOverride at ho
      dsimp only at ho
      split at ho
      · exact ho
      · split at ho
        · exact ho
        · cases ho
    rwa [h] at hb
  | settle _ ht =>
    obtain ⟨o, hs⟩ := settles_of_tryPatch ht
    exact hs.rest.2.2.1 ▸ ho
  | @giveUp _ _ p _ => exact (reportWaiting_noted a p).overrun ▸ ho
  | _ => exact ho

theorem Course.overrun (h : Course a xs b) (ho : b.overrun = false) : a.overrun = false := by
  induction h with
  | refl a => exact ho
  | head h _ ih => exact h.move.overrun (ih ho)

/-! ## Patches in place -/

/-- The patches that wait are where they can be filled in: inside their segments, apart from each
other, and those of branches in front of the instance that is open. Patches that fill no bytes stand
at offset 0. -/
structure Assembly.InPlace (a : Assembly) : Prop where
  inside : ∀ p ∈ a.pending, p.extent.stop ≤ a.segmentSize p.segment
  apart : a.pending.toList.Pairwise fun p q => p.extent.Apart q.extent
  behind : ∀ i, a.opened = some i → a.BranchesBefore i
  still : ∀ p ∈ a.pending, p.kind.span = 0 → p.offset = 0

namespace Assembly.InPlace

section
variable (h : a.InPlace)
include h

theorem thin (hp : b.pending.toList.Sublist a.pending.toList) (hg : Grows a b)
    (ho : ∀ i, b.opened = some i → a.BranchesBefore i) : b.InPlace := by
  have hmem {p : Patch} (hm : p ∈ b.pending) : p ∈ a.pending :=
    Array.mem_toList_iff.1 (hp.mem (Array.mem_toList_iff.2 hm))
  exact {
    inside := fun p hm => Nat.le_trans (h.inside p (hmem hm)) (hg.segmentSize_le _)
    apart := h.apart.sublist hp
    behind := fun i hi p hm => ho i hi p (hmem hm)
    still := fun p hm => h.still p (hmem hm) }

theorem push (hk : p.kind.span = 0) (hz : p.offset = 0) (hp : b.pending = a.pending.push p)
    (hs : b.segments = a.segments) (ho : b.opened = a.opened) : b.InPlace := by
  have hnone (x : Extent) : x.Apart p.extent := by
    rintro k i - ⟨-, hstart, hstop⟩
    simp only [Patch.extent] at hstart hstop
    omega
  have hlead : p.kind.lead = 0 := by
    cases hkind : p.kind <;> rw [hkind] at hk <;> first | rfl | cases hk
  have hbranch : p.kind ≠ .branch := by
    intro hb
    rw [hb] at hk
    cases hk
  have hgrows : Grows a b := .ofSegments hs
  constructor
  · intro q hq
    rw [hp] at hq
    rcases Array.mem_push.1 hq with hq | rfl
    · exact Nat.le_trans (h.inside q hq) (hgrows.segmentSize_le _)
    · simp only [Patch.extent]
      omega
  · rw [hp, Array.toList_push, pairwise_append]
    refine ⟨h.apart, pairwise_singleton _ _, fun q _ r hr => ?_⟩
    obtain rfl := mem_singleton.1 hr
    exact hnone q.extent
  · intro i hi q hq hkind hsegment
    rw [hp] at hq
    rcases Array.mem_push.1 hq with hq | rfl
    · exact h.behind i (ho ▸ hi) q hq hkind hsegment
    · exact absurd hkind hbranch
  · intro q hq hspan
    rw [hp] at hq
    rcases Array.mem_push.1 hq with hq | rfl
    · exact h.still q hq hspan
    · exact hz

/-- The patches for the holes of code are added, for bytes behind `base` in the last segment that no
patch which stays has to do with. -/
theorem add (hc : code.Built a) (base : Nat) {kept : List Patch} {f : PatchKind × Nat × Expr → Patch}
    (hkept : kept.Sublist a.pending.toList) (hf : ∀ hole, (f hole).extent = (a.patchFor base hole).extent)
    (hp : b.pending.toList = kept ++ code.holes.map f) (hg : Grows a b)
    (hin : base + code.bytes.size ≤ b.segmentSize a.lastSegment)
    (hapart : ∀ p ∈ kept, p.segment = a.lastSegment → p.extent.start < p.extent.stop →
      p.extent.stop ≤ base ∨ base + code.bytes.size ≤ p.extent.start)
    (ho : ∀ i, b.opened = some i → a.BranchesBefore i ∧ ∀ hole ∈ code.holes, (f hole).kind ≠ .branch) : b.InPlace := by
  have hmem {p : Patch} (hm : p ∈ b.pending) : p ∈ kept ∨ ∃ hole ∈ code.holes, f hole = p := by
    rw [← Array.mem_toList_iff, hp, mem_append, mem_map] at hm
    exact hm
  have hold {p : Patch} (hm : p ∈ kept) : p ∈ a.pending := Array.mem_toList_iff.1 (hkept.mem hm)
  have hstart (hole : PatchKind × Nat × Expr) :
      (f hole).extent.start = base + hole.2.1 + hole.1.lead := congrArg Extent.start (hf hole)
  have hstop (hole : PatchKind × Nat × Expr) :
      (f hole).extent.stop = base + hole.2.1 + hole.1.lead + hole.1.span :=
    congrArg Extent.stop (hf hole)
  have hsegment (hole : PatchKind × Nat × Expr) : (f hole).segment = a.lastSegment := congrArg Extent.segment (hf hole)
  constructor
  · intro p hm
    rcases hmem hm with hm | ⟨hole, hhole, rfl⟩
    · exact Nat.le_trans (h.inside p (hold hm)) (hg.segmentSize_le _)
    · have hinside := (hc.hole hhole).inside
      rw [hstop, hsegment]
      omega
  · have hnew := hc.patches_apart base
    rw [pairwise_map] at hnew
    rw [hp, pairwise_append, pairwise_map]
    refine ⟨h.apart.sublist hkept, hnew.imp fun {x y} hxy => by rw [hf, hf]; exact hxy,
      fun p hm q hq => ?_⟩
    obtain ⟨hole, hhole, rfl⟩ := mem_map.1 hq
    have hinside := (hc.hole hhole).inside
    rw [Extent.apart_iff, hstart, hstop]
    intro hs hpos _
    have := hapart p hm (hs.trans (hsegment hole)) hpos
    omega
  · intro i hi p hm hk hs
    obtain ⟨hbefore, hdata⟩ := ho i hi
    rcases hmem hm with hm | ⟨hole, hhole, rfl⟩
    · exact hbefore p (hold hm) hk hs
    · exact absurd hk (hdata hole hhole)
  · intro p hm hspan
    rcases hmem hm with hm | ⟨hole, hhole, rfl⟩
    · exact h.still p (hold hm) hspan
    · have hpos := (hc.hole hhole).pos
      have hwidth : (f hole).extent.stop = (f hole).extent.start + (f hole).kind.span := rfl
      rw [hstart, hstop] at hwidth
      omega

theorem emit (hc : code.Built a) (hd : a.opened = none ∨ code.IsData) : (a.emit code).2.InPlace := by
  have hgrows := Grows.emit a code
  rcases he : a.emit code with ⟨fault | _, b⟩ <;> rw [he] at hgrows
  · rw [emit_error he] at hgrows ⊢
    have hopen := Idle.openSegment a
    obtain ⟨_, ho⟩ := a.openSegment_eq
    refine h.thin (by simp [hopen.pending]) hgrows fun i hi => ?_
    rw [ho] at hi
    exact h.behind i hi
  · have hemitted := hc.emitted he
    obtain ⟨_, _, hkept⟩ := hemitted.kept
    refine h.add hc (a.segmentSize a.lastSegment) (Sublist.refl _) (fun _ => rfl)
      (by rw [hemitted.pending]; simp) hgrows ?_ (fun p hm hs _ => .inl ?_) fun i hi => ?_
    · have hsize := hemitted.size a.lastSegment
      rw [if_pos rfl] at hsize
      exact Nat.le_of_eq hsize.symm
    · exact hs ▸ h.inside p (Array.mem_toList_iff.1 hm)
    · have hia : a.opened = some i := by rw [hkept] at hi; exact hi
      refine ⟨h.behind i hia, fun hole hm => ?_⟩
      rcases hd with hnone | hd
      · rw [hnone] at hia
        cases hia
      · exact hd hole hm

theorem before_or_at (hi : a.opened = some i) (hp : p ∈ a.pending) (hs : p.segment = i.segment) :
    p.extent.stop ≤ i.start ∧ p.offset < p.extent.start ∨ p.extent.start = p.offset := by
  by_cases hk : p.kind = .branch
  · have := h.behind i hi p hp hk hs
    simp only [Patch.extent, hk, PatchKind.lead, PatchKind.span]
    omega
  · refine .inr ?_
    cases hkind : p.kind <;> first | exact absurd hkind hk | simp [Patch.extent, hkind, PatchKind.lead]

theorem untouched (hi : a.opened = some i) (hp : p ∈ a.pending) {first stop : Nat} (hfrom : i.start ≤ first)
    (ht : p.touches i.segment first stop = false) (hs : p.segment = i.segment) :
    p.extent.stop ≤ first ∨ stop ≤ p.extent.start := by
  simp only [Patch.touches, hs, beq_self_eq_true, Bool.true_and, Bool.and_eq_false_iff, decide_eq_false_iff_not] at ht
  have hstop : p.extent.stop = p.extent.start + p.kind.span := rfl
  rcases h.before_or_at hi hp hs with hle | hat <;> omega

theorem touched (hi : a.opened = some i) (hp : p ∈ a.pending) {first stop : Nat} (hfrom : i.start ≤ first)
    (ht : p.touches i.segment first stop = true) :
    p.segment = i.segment ∧ p.extent.start = p.offset ∧ p.offset < stop ∧ first < p.extent.stop := by
  simp only [Patch.touches, Bool.and_eq_true, beq_iff_eq, decide_eq_true_eq] at ht
  obtain ⟨⟨hs, hfirst⟩, hlast⟩ := ht
  have hstop : p.extent.stop = p.extent.start + p.kind.span := rfl
  rcases h.before_or_at hi hp hs with hle | hat
  · omega
  · exact ⟨hs, hat, hfirst, by omega⟩

theorem override (hi : a.opened = some i) (hin : i.segment = a.lastSegment) (hc : code.Built a) (hd : code.IsData)
    (hg : Grows a b) (ho : Overridden a i code b) : b.InPlace := by
  have hpending := congrArg Array.toList ho.pending
  rw [Array.toList_append, Array.toList_filter] at hpending
  refine h.add hc (i.start + i.cursor) filter_sublist (a.extent_patchFor_inField _) hpending hg
    ?_ (fun p hm hs _ => ?_) fun j hj => ?_
  · rw [ho.size, ← hin]
    exact ho.fits
  · obtain ⟨hm, htouch⟩ := mem_filter.1 hm
    exact h.untouched hi (Array.mem_toList_iff.1 hm) (Nat.le_add_right _ _) (by simpa using htouch)
      (hs.trans hin.symm)
  · rw [ho.opened] at hj
    cases hj
    exact ⟨h.behind i hi, fun hole hm hk => hd hole hm (PatchKind.eq_branch_of_inField hk)⟩

theorem action (ha : Arises a) (hm : Action a xs b) (ho : b.overrun = false) : b.InPlace := by
  have hgrows := hm.move.grows
  cases hm with
  | idle hidle =>
    refine h.thin (by simp [hidle.pending]) hgrows fun i hi => ?_
    rcases hidle.opened i hi with hbefore | ⟨j, hj, hs, hstart⟩
    · exact hbefore
    · intro p hp hk hps
      rw [← hstart]
      exact h.behind j hj p hp hk (hps.trans hs.symm)
  | emit hc hd => exact h.emit hc hd
  | awaitEntry hk _ =>
    refine h.push ?_ rfl rfl rfl rfl
    rcases hk with rfl | rfl <;> rfl
  | awaitEqu _ hd =>
    obtain rfl := define_ok hd
    exact h.push rfl rfl rfl rfl rfl
  | override hi hc hd he hmove =>
    have hin := ha.reachable.instanceInPlace _ hi
    exact h.override hi hin hc hd hgrows ((hc.emitted he).overridden hin hmove ho)
  | settle hq hs =>
    exact h.thin (taken_sublist hq) hgrows fun i hi => h.behind i (hs.rest.2.1 ▸ hi)
  | giveUp hq =>
    refine h.thin (taken_sublist hq) hgrows fun i hi => h.behind i ?_
    exact (reportWaiting_noted a _).opened ▸ hi

end

end Assembly.InPlace

theorem Course.inPlace (h : Course a xs b) (ha : Arises a) (hin : a.InPlace) (ho : b.overrun = false) : b.InPlace :=
  h.invariant (P := fun a => a.overrun = false → a.InPlace)
    (fun _ _ _ ha hm hin ho => (hin (hm.move.overrun ho)).action ha hm ho) ha (fun _ => hin) ho

theorem Arises.inPlace (h : Arises a) (ho : a.overrun = false) : a.InPlace := by
  obtain ⟨setup, xs, hs⟩ := h
  refine hs.inPlace (.new setup) ⟨?_, Pairwise.nil, ?_, ?_⟩ ho
  · exact fun p hp => absurd hp (Array.not_mem_empty p)
  · intro i hi
    cases hi
  · exact fun p hp => absurd hp (Array.not_mem_empty p)

end SpectrumAsm
