/-
What the assembler does to bytes and patches, one action after the other.

`Action` lists what is done, more narrowly than `Move`, by what becomes of the bytes and of the queue: no
branch waits behind the start of an open instance, and only a constant that waits is entered without a value.
A run is a sequence of actions (`Course`), with the parts of segments that overrides rewrote.
-/
import SpectrumAsm.Proofs.Blanks
import SpectrumAsm.Proofs.Structures

namespace SpectrumAsm

open Array Assembly

variable {a b : Assembly} {xs : List Extent} {code : Code}

/-! ## Parts of segments -/

/-- A part of a segment, from `start` up to but not including `stop`. -/
structure Extent where
  segment : Nat
  start : Nat
  stop : Nat
  deriving DecidableEq, Repr

namespace Extent

def Covers (x : Extent) (segment i : Nat) : Prop := segment = x.segment ∧ x.start ≤ i ∧ i < x.stop

def Apart (x y : Extent) : Prop := ∀ k i, x.Covers k i → ¬ y.Covers k i

theorem Apart.symm {x y : Extent} (h : x.Apart y) : y.Apart x := fun k i hy hx => h k i hx hy

theorem apart_iff {x y : Extent} : x.Apart y ↔ (x.segment = y.segment → x.start < x.stop → y.start < y.stop →
      x.stop ≤ y.start ∨ y.stop ≤ x.start) := by
  constructor
  · intro h hs hx hy
    by_cases hmeet : y.start < x.stop ∧ x.start < y.stop
    · have hfirst := h x.segment (max x.start y.start) ⟨rfl, by omega, by omega⟩
      exact absurd ⟨hs, by omega, by omega⟩ hfirst
    · omega
  · rintro h k i ⟨hk, hx⟩ ⟨hk', hy⟩
    have := h (hk.symm.trans hk') (by omega) (by omega)
    omega

end Extent

/-- The part of an instance that an override of a number of bytes goes to. -/
def StructInstance.extent (i : StructInstance) (length : Nat) : Extent :=
  ⟨i.segment, i.start + i.cursor, i.start + i.cursor + length⟩

/-! ## Actions -/

/-- All branches that wait in the segment of an instance lie in front of it. -/
def Assembly.BranchesBefore (a : Assembly) (i : StructInstance) : Prop :=
  ∀ p ∈ a.pending, p.kind = .branch → p.segment = i.segment → p.offset + 2 ≤ i.start

theorem PatchKind.eq_branch_of_inField {kind : PatchKind} (h : kind.inField = .branch) : kind = .branch := by
  cases kind <;> first | rfl | cases h

/-- A move that touches neither bytes nor patches, enters no blank symbol, and opens an instance only behind
all branches that wait. -/
structure Idle (a b : Assembly) : Prop where
  move : Move a b
  pending : b.pending = a.pending
  bytes : ∀ k i, b.byteAt k i = a.byteAt k i
  blank : ∀ slot key, b.symbols.Blank slot key → a.symbols.Blank slot key
  opened : ∀ i, b.opened = some i → a.BranchesBefore i ∨
    ∃ j, a.opened = some j ∧ j.segment = i.segment ∧ j.start = i.start

/-- One thing the assembler does, with what an override rewrites. -/
inductive Action : Assembly → List Extent → Assembly → Prop where
  | idle {a b : Assembly} (h : Idle a b) : Action a [] b
  /-- the code of a line is put into the segment, or does not fit; in an instance it is data -/
  | emit {a : Assembly} {code : Code} (h : code.Built a) (hd : a.opened = none ∨ code.IsData) :
    Action a [] (a.emit code).2
  | awaitEntry {a : Assembly} {e : Expr} {kind : PatchKind} (hk : kind = .entry ∨ kind = .exportEntry)
    (h : a.Awaits e) : Action a [] (a.addPatch kind a.lastSegment 0 e none)
  | awaitEqu {a b : Assembly} {e : Expr} {label : String} {slot : Slot} (h : a.Awaits e)
    (hd : a.define label .equ none = (.ok slot, b)) :
    Action a [] (b.addPatch .equ b.lastSegment 0 e (some (slot, Text.upcase label)))
  /-- a field of the open instance is overridden -/
  | override {a b c : Assembly} {i : StructInstance} {code : Code} (hi : a.opened = some i)
    (hc : code.Built a) (hd : code.IsData) (he : a.emit code = (.ok (), b))
    (hm : b.moveOverride i (a.segmentSize i.segment) a.pending.size = (.ok (), c)) :
    Action a [i.extent code.bytes.size] c
  | settle {a b : Assembly} {kept rest : List Patch} {p : Patch} {o : Settlement}
    (hq : a.pending.toList = kept ++ p :: rest) (h : Settles a p o b) :
    Action a [] { b with pending := (kept ++ rest).toArray }
  | giveUp {a : Assembly} {kept rest : List Patch} {p : Patch}
    (hq : a.pending.toList = kept ++ p :: rest) :
    Action a [] { a.reportWaiting p with pending := (kept ++ rest).toArray }

theorem Action.move (h : Action a xs b) : Move a b := by
  cases h with
  | idle h => exact h.move
  | emit h _ => exact .emit h
  | awaitEntry hk h => exact .awaitEntry hk h
  | awaitEqu h hd => exact .awaitEqu h hd
  | override hi hc hd he hm =>
    have hmove := Move.override hi hc hd he
    rwa [hm] at hmove
  | settle hq h => exact .settle hq h.tryPatch
  | giveUp hq => exact .giveUp hq

/-! ## Idle moves -/

namespace Idle

theorem ofSame (hm : Move a b) (hp : b.pending = a.pending) (hb : ∀ k i, b.byteAt k i = a.byteAt k i)
    (hs : ∀ slot, b.symbols.symbolsAt slot = a.symbols.symbolsAt slot) (ho : b.opened = a.opened) : Idle a b :=
  ⟨hm, hp, hb, fun slot _ h => h.congr (hs slot), fun i hi => .inr ⟨i, ho ▸ hi, rfl, rfl⟩⟩

theorem note (h : Noted a b) : Idle a b := by
  refine ofSame (.note h) h.pending (byteAt_congr h.segments) (fun slot => ?_) h.opened
  obtain ⟨used, hu⟩ := h.symbols
  rw [hu]
  cases slot <;> rfl

theorem symbols {t : SymbolTable} (h : a.symbols.Change t)
    (hb : ∀ slot key, t.Blank slot key → a.symbols.Blank slot key) : Idle a { a with symbols := t } :=
  ⟨.symbols h, rfl, fun _ _ => rfl, hb, fun i hi => .inr ⟨i, hi, rfl, rfl⟩⟩

theorem closeScope (a : Assembly) : Idle a a.closeScope :=
  ⟨.closeScope a, rfl, fun _ _ => rfl, fun _ _ h => h.of_closeScope, fun i hi => .inr ⟨i, hi, rfl, rfl⟩⟩

theorem byteAt_push {s : Segment} (hs : s.bytes = #[]) (hb : b.segments = a.segments.push s)
    (k i : Nat) : b.byteAt k i = a.byteAt k i := by
  unfold byteAt
  rw [hb, getElem?_push]
  split
  · next hk =>
    subst hk
    simp [hs]
  · rfl

theorem openSegment (a : Assembly) : Idle a a.openSegment := by
  by_cases h : a.segments = #[]
  · have hopen := openSegment_of_empty h
    refine ofSame (.openSegment a) (by rw [hopen]) ?_ (by simp [hopen]) (by rw [hopen])
    exact byteAt_push rfl (by rw [hopen, h]; rfl)
  · have hopen := openSegment_of_size_pos (size_pos_iff.2 h)
    exact ofSame (.openSegment a) (by rw [hopen]) (by simp [hopen]) (by simp [hopen]) (by rw [hopen])

theorem byteAt_modify {n : Nat} {f : Segment → Segment} (hf : ∀ s, (f s).bytes = s.bytes)
    (hb : b.segments = a.segments.modify n f) (k i : Nat) : b.byteAt k i = a.byteAt k i := by
  unfold byteAt
  rw [hb]
  exact bind_modify_of_eq (fun s => by rw [hf]) k

theorem setOrigin (h : a.opened = none) (start : UInt16) : Idle a (a.setOrigin start) := by
  have hbytes : ∀ k i, (a.setOrigin start).byteAt k i = a.byteAt k i := by
    unfold Assembly.setOrigin
    split
    · split
      · exact byteAt_modify (f := fun s => { s with start }) (fun _ => rfl) rfl
      · exact byteAt_push rfl rfl
    · exact byteAt_push rfl rfl
  obtain ⟨segments, ho⟩ := a.setOrigin_eq start
  exact ofSame (.setOrigin h start) (by rw [ho]) hbytes (by simp [ho]) (by rw [ho])

theorem displace (a : Assembly) (d : Int32) : Idle a
    { a with segments := a.segments.modify a.lastSegment fun s => { s with displacement := some d } } :=
  ofSame (.displace a d) rfl (byteAt_modify (f := fun s => { s with displacement := some d })
    (fun _ => rfl) rfl) (fun _ => rfl) rfl

theorem setEntry (a : Assembly) (entry exportEntry : Option UInt16) : Idle a { a with entry, exportEntry } :=
  ofSame (.setEntry a entry exportEntry) rfl (fun _ _ => rfl) (fun _ => rfl) rfl

theorem openInstance {i : StructInstance} (hs : i.segment = a.lastSegment)
    (hb : a.BranchesBefore i) : Idle a { a with opened := some i } :=
  ⟨.openInstance hs, rfl, fun _ _ => rfl, fun _ _ h => h, fun j hj => by cases hj; exact .inl hb⟩

theorem seek {i : StructInstance} (h : a.opened = some i) (cursor : Nat) :
    Idle a { a with opened := some { i with cursor } } :=
  ⟨.seek h cursor, rfl, fun _ _ => rfl, fun _ _ h => h, fun j hj => by
    cases hj
    exact .inr ⟨i, h, rfl, rfl⟩⟩

theorem closeInstance (a : Assembly) : Idle a { a with opened := none } :=
  ⟨.closeInstance a, rfl, fun _ _ => rfl, fun _ _ h => h, fun j hj => by cases hj⟩

end Idle

/-! ## Code with its holes -/

/-- Code was put behind the bytes of the last segment, and a patch into the queue for each of its
holes. -/
structure Emitted (a : Assembly) (code : Code) (b : Assembly) : Prop where
  pending : b.pending = a.pending ++ (code.holes.map (a.patchFor (a.segmentSize a.lastSegment))).toArray
  size : ∀ k, b.segmentSize k = a.segmentSize k + if k = a.lastSegment then code.bytes.size else 0
  bytes : ∀ k i, b.byteAt k i = if k = a.lastSegment ∧ a.segmentSize k ≤ i then
    code.bytes[i - a.segmentSize k]? else a.byteAt k i
  kept : ∃ segments pending, b = { a with segments, pending }

namespace Emitted

variable {code : Code} (h : Emitted a code b)
include h

theorem earlier : b.pending.extract 0 a.pending.size = a.pending := by
  rw [h.pending]
  simp

theorem later : b.pending.extract a.pending.size b.pending.size =
    (code.holes.map (a.patchFor (a.segmentSize a.lastSegment))).toArray := by
  rw [h.pending, size_append, extract_append_right, extract_size]

end Emitted

theorem Assembly.byteAt_of_size_le {k i : Nat} (h : a.segmentSize k ≤ i) : a.byteAt k i = none := by
  unfold segmentSize at h
  unfold byteAt
  cases hs : a.segments[k]? with
  | none => rfl
  | some s =>
    rw [hs] at h
    exact getElem?_eq_none h

/-- Code that is not empty goes to the end of the last segment, with a patch for each of its holes. -/
theorem Emitted.of_ne (he : a.emit code = (.ok (), b)) (hempty : code.bytes ≠ #[]) :
    Emitted a code b := by
  obtain ⟨hpending, s, hs, hsize, hlast⟩ := emit_ok he hempty
  have hother (k : Nat) (hk : a.lastSegment ≠ k) :
      b.segments[k]? = a.openSegment.segments[k]? := by
    rcases a.emit_cases code with ⟨h, -⟩ | ⟨-, h⟩ | ⟨s, -, -, h⟩
    · exact absurd h hempty
    · rw [he] at h
      cases h
    · rw [he] at h
      cases h
      unfold appended
      rw [lastSegment_openSegment]
      exact (getElem?_modify ..).trans (if_neg hk)
  obtain ⟨segments, pending, hkept⟩ := a.emit_eq code
  rw [he] at hkept
  refine ⟨hpending, fun k => ?_, fun k i => ?_, segments, pending, hkept⟩
  · by_cases hk : a.lastSegment = k
    · subst hk
      rw [if_pos rfl, ← hsize]
      unfold segmentSize
      rw [hlast]
      exact size_append
    · rw [if_neg (Ne.symm hk), Nat.add_zero, ← a.segmentSize_openSegment]
      unfold segmentSize
      rw [hother k hk]
  · by_cases hk : a.lastSegment = k
    · subst hk
      have hb : b.byteAt a.lastSegment i = (s.bytes ++ code.bytes)[i]? := by
        unfold byteAt
        rw [hlast]
        rfl
      rw [hb]
      split
      · next hend => rw [getElem?_append_right (by omega), hsize]
      · next hend =>
        rw [getElem?_append_left (by omega), ← (Idle.openSegment a).bytes]
        unfold byteAt
        rw [hs]
        rfl
    · rw [if_neg (by omega), ← (Idle.openSegment a).bytes]
      unfold byteAt
      rw [hother k hk]

theorem Code.Built.emitted (hc : code.Built a) (he : a.emit code = (.ok (), b)) : Emitted a code b := by
  by_cases hempty : code.bytes = #[]
  · rw [emit, if_pos (by simp [hempty])] at he
    cases he
    have hholes : code.holes = [] := hc.holes_of_empty (by simp [hempty])
    refine ⟨by simp [hholes], fun k => by simp [hempty], fun k i => ?_, a.segments, a.pending, rfl⟩
    split
    · next hend =>
      rw [byteAt_of_size_le hend.2, hempty]
      rfl
    · rfl
  · exact .of_ne he hempty

theorem Assembly.emit_error {fault : Fault} (he : a.emit code = (.error fault, b)) :
    b = a.openSegment := by
  rcases a.emit_cases code with ⟨-, h⟩ | ⟨-, h⟩ | ⟨s, -, -, h⟩ <;> rw [h] at he <;> cases he
  rfl

/-- A patch is new if its expression waits. Only constants have a target, and a branch has its bytes. -/
theorem Move.queued (h : Move a b) {p : Patch} (hp : p ∈ b.pending) : p ∈ a.pending ∨ a.Awaits p.expr ∧
    (p.kind ≠ .equ → p.target = none) ∧ (p.kind = .branch → p.offset + 2 ≤ b.segmentSize p.segment) := by
  cases h with
  | note h => exact .inl (h.pending ▸ hp)
  | openSegment => exact .inl ((Idle.openSegment a).pending ▸ hp)
  | setOrigin ho start => exact .inl ((Idle.setOrigin ho start).pending ▸ hp)
  | @emit code hc =>
    rcases he : a.emit code with ⟨fault | _, b⟩ <;> rw [he] at hp
    · rw [emit_error he] at hp
      exact .inl ((Idle.openSegment a).pending ▸ hp)
    · have hemitted := hc.emitted he
      rw [hemitted.pending, mem_append] at hp
      refine hp.imp_right fun hp => ?_
      obtain ⟨hole, hm, rfl⟩ := List.mem_map.1 (List.mem_toArray.1 hp)
      refine ⟨(hc.hole hm).awaits, fun _ => rfl, fun hk => ?_⟩
      have hinside := (hc.hole hm).inside
      rw [show hole.1 = .branch from hk] at hinside
      show a.segmentSize a.lastSegment + hole.2.1 + 2 ≤ b.segmentSize a.lastSegment
      rw [hemitted.size, if_pos rfl]
      dsimp only [PatchKind.lead, PatchKind.span] at hinside
      omega
  | awaitEntry hk he =>
    rcases mem_push.1 hp with hp | rfl
    · exact .inl hp
    · exact .inr ⟨he, fun _ => rfl, fun hb => by rcases hk with rfl | rfl <;> cases hb⟩
  | awaitEqu he hd =>
    obtain rfl := define_ok hd
    rcases mem_push.1 hp with hp | rfl
    · exact .inl hp
    · exact .inr ⟨he, absurd rfl, fun hb => by cases hb⟩
  | @override b i code _ hc hd he =>
    have hemitted := hc.emitted he
    rcases b.pending_moveOverride i (a.segmentSize i.segment) a.pending.size with h | ⟨_, _, _, h⟩ <;>
      rw [h, hemitted.earlier] at hp
    · exact .inl hp
    rw [hemitted.later, mem_append] at hp
    refine hp.imp (fun hp => (mem_filter.1 hp).1) fun hp => ?_
    obtain ⟨q, hq, rfl⟩ := mem_map.1 hp
    obtain ⟨hole, hm, rfl⟩ := List.mem_map.1 (List.mem_toArray.1 hq)
    exact ⟨(hc.hole hm).awaits, fun _ => rfl, fun hk => absurd (PatchKind.eq_branch_of_inField hk) (hd hole hm)⟩
  | settle hq _ | giveUp hq => exact .inl (mem_pending_of_taken hq hp)
  | _ => exact .inl hp

/-! ## Courses -/

/-- Actions one after the other, with all that overrides rewrite on the way. -/
inductive Course : Assembly → List Extent → Assembly → Prop where
  | refl (a : Assembly) : Course a [] a
  | head {a b c : Assembly} {xs ys : List Extent} (h : Action a xs b) (rest : Course b ys c) :
    Course a (xs ++ ys) c

namespace Course

variable {c : Assembly} {ys : List Extent}

theorem trans (h : Course a xs b) (h' : Course b ys c) : Course a (xs ++ ys) c := by
  induction h with
  | refl a => exact h'
  | head h _ ih =>
    rw [List.append_assoc]
    exact .head h (ih h')

theorem single (h : Action a xs b) : Course a xs b := by
  have := head h (.refl b)
  rwa [List.append_nil] at this

theorem moves (h : Course a xs b) : Moves a b := by
  induction h with
  | refl a => exact .refl
  | head h _ ih => exact .head h.move ih

end Course

/-- The states a run of the assembler can get into. -/
def Arises (a : Assembly) : Prop := ∃ setup xs, Course (.new setup) xs a

theorem Arises.new (setup : Setup) : Arises (.new setup) := ⟨setup, [], .refl _⟩

theorem Arises.course (ha : Arises a) (h : Course a xs b) : Arises b := by
  obtain ⟨setup, ys, hs⟩ := ha
  exact ⟨setup, ys ++ xs, hs.trans h⟩

theorem Arises.reachable (h : Arises a) : Reachable a := by
  obtain ⟨setup, xs, hs⟩ := h
  exact ⟨setup, hs.moves⟩

theorem Course.invariant {P : Assembly → Prop} (hP : ∀ a xs b, Arises a → Action a xs b → P a → P b)
    (h : Course a xs b) (ha : Arises a) (hpa : P a) : P b := by
  induction h with
  | refl a => exact hpa
  | head h _ ih => exact ih (ha.course (.single h)) (hP _ _ _ ha h hpa)

def Acts (a b : Assembly) : Prop := ∃ xs, Course a xs b

namespace Acts

variable {c : Assembly}

theorem refl (a : Assembly) : Acts a a := ⟨[], .refl a⟩

theorem trans (h : Acts a b) (h' : Acts b c) : Acts a c := by
  obtain ⟨xs, h⟩ := h
  obtain ⟨ys, h'⟩ := h'
  exact ⟨xs ++ ys, h.trans h'⟩

theorem single (h : Action a xs b) : Acts a b := ⟨xs, .single h⟩

theorem moves (h : Acts a b) : Moves a b := by
  obtain ⟨xs, h⟩ := h
  exact h.moves

end Acts

/-! ## Sweeps -/

theorem Resolution.course {log : List (Patch × Settlement)} (h : Resolution a log b) : Course a [] b := by
  induction h with
  | refl a => exact .refl a
  | wait _ _ _ ih => exact .head (.idle (.note (.ofAsked (.evalAt _ _ _)))) ih
  | settle hq hs _ ih => exact .head (.settle hq hs) ih

end SpectrumAsm
