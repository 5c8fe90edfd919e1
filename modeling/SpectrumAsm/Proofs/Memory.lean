/-
Segments stay inside the memory.

Whatever is done to the segments of an assembly is an `Edit`, and every edit keeps all segments inside the
memory. For measuring a structure all segments are put aside and taken back; they are part of the state that
is edited (`Draft`).
-/
import SpectrumAsm.Proofs.Segments

namespace SpectrumAsm

open Array

variable {segments : Array Segment}

/-- A segment ends at the highest address or before. -/
def Segment.Fits (s : Segment) : Prop := s.stop ≤ memoryEnd

/-- An assembly, and the segments that were put aside while structures are measured. -/
abbrev Draft := List (Array Segment) × Assembly

inductive Edit : Draft → Draft → Prop where
  | other {aside : List (Array Segment)} {a b : Assembly} (h : b.segments = a.segments) :
    Edit (aside, a) (aside, b)
  | openSegment (aside : List (Array Segment)) (a : Assembly) : Edit (aside, a) (aside, a.openSegment)
  /-- code is put behind the last segment, or does not fit -/
  | emit (aside : List (Array Segment)) (a : Assembly) (code : Code) :
    Edit (aside, a) (aside, (a.emit code).2)
  | setOrigin (aside : List (Array Segment)) (a : Assembly) (start : UInt16) :
    Edit (aside, a) (aside, a.setOrigin start)
  | displace (aside : List (Array Segment)) (a : Assembly) (d : Int32) : Edit (aside, a) (aside,
    { a with segments := a.segments.modify a.lastSegment fun s => { s with displacement := some d } })
  | patch (aside : List (Array Segment)) (a : Assembly) (segment offset : Nat) (bytes : List UInt8) :
    Edit (aside, a) (aside, a.patchBytes segment offset bytes)
  | cut (aside : List (Array Segment)) (a : Assembly) (segment size : Nat) :
    Edit (aside, a) (aside, a.cutSegment segment size)
  /-- segments are put aside for measuring a structure -/
  | putAside (aside : List (Array Segment)) (a : Assembly) :
    Edit (aside, a) (a.segments :: aside, { a with segments := #[{ start := 0 }] })
  /-- what was put aside is taken back -/
  | takeBack (aside : List (Array Segment)) (segments : Array Segment) (a : Assembly) :
    Edit (segments :: aside, a) (aside, { a with segments })

/-! ## What every edit keeps -/

/-- All segments are inside the memory, also those that were put aside. -/
structure Draft.Fits (d : Draft) : Prop where
  segments : ∀ s ∈ d.2.segments, s.Fits
  aside : ∀ segments ∈ d.1, ∀ s ∈ segments, s.Fits

namespace Segment.Fits

theorem empty (start : UInt16) (displacement : Option Int32) : Fits ⟨start, displacement, #[]⟩ := by
  have hlt := start.toNat_lt
  simp only [Fits, stop, memoryEnd, List.size_toArray, List.length_nil]
  omega

theorem shorter {s s' : Segment} (h : s.Fits) (hstart : s'.start = s.start)
    (hsize : s'.bytes.size ≤ s.bytes.size) : s'.Fits := by
  unfold Fits stop at h ⊢
  rw [hstart]
  omega

end Segment.Fits

theorem fits_modify (h : ∀ s ∈ segments, s.Fits) {k : Nat} {f : Segment → Segment}
    (hf : ∀ s, segments[k]? = some s → s.Fits → (f s).Fits) : ∀ s ∈ segments.modify k f, s.Fits := by
  intro s hs
  obtain ⟨i, hi⟩ := mem_iff_getElem?.1 hs
  rw [getElem?_modify] at hi
  split at hi
  · next hk =>
    subst hk
    obtain ⟨s', hs', rfl⟩ := Option.map_eq_some_iff.1 hi
    exact hf s' hs' (h s' (mem_of_getElem? hs'))
  · exact h s (mem_of_getElem? hi)

theorem fits_push (h : ∀ s ∈ segments, s.Fits) {s : Segment} (hs : s.Fits) :
    ∀ s' ∈ segments.push s, s'.Fits := by
  intro s' hm
  rcases mem_push.1 hm with hm | rfl
  · exact h s' hm
  · exact hs

namespace Assembly

variable {a : Assembly}

section
variable (h : ∀ s ∈ a.segments, s.Fits)
include h

theorem fits_openSegment : ∀ s ∈ a.openSegment.segments, s.Fits := by
  unfold openSegment
  split
  · intro s hs
    obtain rfl := mem_singleton.1 hs
    exact .empty _ _
  · exact h

theorem fits_setOrigin (start : UInt16) : ∀ s ∈ (a.setOrigin start).segments, s.Fits := by
  unfold setOrigin
  split
  · next last hlast =>
    split
    · next hempty =>
      dsimp only
      refine fits_modify h fun s hs _ => ?_
      have hsame : s = last := by
        rw [back?_eq_getElem?] at hlast
        exact Option.some.inj (hs.symm.trans hlast)
      have hbytes : s.bytes = #[] := by
        rw [hsame]
        exact isEmpty_iff.1 hempty
      rw [hbytes]
      exact .empty _ _
    · exact fits_push h (.empty _ _)
  · exact fits_push h (.empty _ _)

theorem fits_emit (code : Code) : ∀ s ∈ (a.emit code).2.segments, s.Fits := by
  have hopen := fits_openSegment h
  rcases a.emit_cases code with ⟨-, he⟩ | ⟨-, he⟩ | ⟨last, hlast, hroom, he⟩ <;> rw [he]
  · exact h
  · exact hopen
  · dsimp only [appended]
    refine fits_modify hopen fun s hs _ => ?_
    have hsame : s = last := by
      rw [back?_eq_getElem?] at hlast
      exact Option.some.inj (hs.symm.trans hlast)
    rw [hsame]
    unfold Segment.Fits Segment.stop at *
    simp only [size_append]
    omega

end

end Assembly

theorem Edit.fits {d d' : Draft} (h : Edit d d') (hd : d.Fits) : d'.Fits := by
  obtain ⟨hsegments, haside⟩ := hd
  cases h with
  | other h => exact ⟨fun s hs => hsegments s (h ▸ hs), haside⟩
  | openSegment _ a => exact ⟨Assembly.fits_openSegment hsegments, haside⟩
  | emit _ a code => exact ⟨Assembly.fits_emit hsegments code, haside⟩
  | setOrigin _ a start => exact ⟨Assembly.fits_setOrigin hsegments start, haside⟩
  | displace _ a d =>
    have hkept := fits_modify hsegments (k := a.lastSegment)
      (f := fun s => { s with displacement := some d }) fun s _ hs => hs.shorter rfl (Nat.le_refl _)
    exact ⟨hkept, haside⟩
  | patch _ a segment offset bytes =>
    have hkept := fits_modify hsegments (k := segment) (f := fun s => s.patch offset bytes)
      fun s _ hs => hs.shorter (s.start_patch offset bytes) (Nat.le_of_eq (s.size_patch offset bytes))
    exact ⟨hkept, haside⟩
  | cut _ a segment size =>
    have hkept := fits_modify hsegments (k := segment)
      (f := fun s => { s with bytes := s.bytes.extract 0 size }) fun s _ hs =>
        hs.shorter rfl (by simp only [size_extract]; omega)
    exact ⟨hkept, haside⟩
  | putAside _ a =>
    refine ⟨fun s hs => ?_, fun segments hm => ?_⟩
    · obtain rfl := mem_singleton.1 hs
      exact .empty _ _
    · rcases List.mem_cons.1 hm with rfl | hm
      · exact hsegments
      · exact haside segments hm
  | takeBack aside segments a =>
    exact ⟨haside segments List.mem_cons_self, fun other hm => haside other (List.mem_cons_of_mem _ hm)⟩

theorem fits_of_edits {d d' : Draft} (h : Relation.ReflTransGen Edit d d') (hd : d.Fits) : d'.Fits := by
  induction h with
  | refl => exact hd
  | tail _ hedit ih => exact hedit.fits ih

/-! ## Edits between two states -/

/-- Edits that leave aside what was put aside before. -/
def Edits (a b : Assembly) : Prop := ∀ aside : List (Array Segment), Relation.ReflTransGen Edit (aside, a) (aside, b)

namespace Edits

variable {a b c : Assembly}

theorem same (h : b.segments = a.segments) : Edits a b := fun _ => .single (.other h)

theorem refl (a : Assembly) : Edits a a := same rfl

theorem trans (h : Edits a b) (h' : Edits b c) : Edits a c := fun aside => (h aside).trans (h' aside)

theorem congr {a' b' : Assembly} (h : Edits a' b') (ha : a'.segments = a.segments)
    (hb : b.segments = b'.segments) : Edits a b := ((same ha).trans h).trans (same hb)

section
variable (a : Assembly)

theorem openSegment : Edits a a.openSegment := fun aside => .single (.openSegment aside a)

theorem emit (code : Code) : Edits a (a.emit code).2 := fun aside =>
  .single (.emit aside a code)

theorem setOrigin (start : UInt16) : Edits a (a.setOrigin start) := fun aside =>
  .single (.setOrigin aside a start)

theorem displace (d : Int32) : Edits a
    { a with segments := a.segments.modify a.lastSegment fun s => { s with displacement := some d } } :=
  fun aside => .single (.displace aside a d)

theorem patch (segment offset : Nat) (bytes : List UInt8) :
    Edits a (a.patchBytes segment offset bytes) := fun aside =>
  .single (.patch aside a segment offset bytes)

theorem cut (segment size : Nat) : Edits a (a.cutSegment segment size) := fun aside =>
  .single (.cut aside a segment size)

end

end Edits

end SpectrumAsm
