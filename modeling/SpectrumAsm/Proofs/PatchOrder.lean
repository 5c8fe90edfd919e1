/-
Patches may be applied in any order.

A patch overwrites its own bytes with the encoding of its value, which may depend on the address of the patch
but never on bytes, and waiting patches fill different bytes.
-/
import SpectrumAsm.Proofs.ForwardReferences
import SpectrumAsm.Proofs.Walking

namespace SpectrumAsm

open Assembly

variable {p : Patch} {a b : Assembly} {v : Value} {i j k : Nat} {bytes xs ys : List UInt8}

/-! ## Filling patches in -/

/-- The bytes a value is written as in the place of a patch. The distance of a branch is that from
the address its opcode has by then. -/
def Patch.encode (p : Patch) (a : Assembly) (v : Value) : Except Fault (List UInt8) := v.lowWord.bind fun w =>
    match p.kind with
    | .byte | .fieldByte => .ok [w.toUInt8]
    | .word | .fieldWord => .ok (littleEndian w)
    | .branch =>
      (branchByte w ((a.segments[p.segment]?.map (·.wordAt p.offset)).getD 0)).map fun d => [d]
    | .equ | .entry | .exportEntry => .ok []

theorem Patch.length_encode (h : p.encode a v = .ok bytes) : bytes.length = p.kind.span := by
  unfold encode at h
  cases hw : v.lowWord with
  | error _ => rw [hw] at h; cases h
  | ok w =>
    rw [hw] at h
    dsimp only [Except.bind] at h
    cases hk : p.kind with
    | branch =>
      rw [hk] at h
      cases hd : branchByte w ((a.segments[p.segment]?.map (·.wordAt p.offset)).getD 0) with
      | error _ => rw [hd] at h; cases h
      | ok d => rw [hd] at h; cases h; rfl
    | _ => rw [hk] at h; cases h; rfl

theorem applyPatch_eq {s : Segment} (hs : a.segments[p.segment]? = some s) (hpos : 0 < p.kind.span)
    (v : Value) : a.applyPatch p v = (p.encode a v).map fun bytes => a.patchBytes p.segment p.extent.start bytes := by
  unfold applyPatch Patch.encode Patch.extent
  cases hk : p.kind with
  | branch =>
    cases v.lowWord with
    | error _ => rfl
    | ok w =>
      simp only [bind, Except.bind, hs, Option.map_some, Option.getD_some]
      cases branchByte w (s.wordAt p.offset) <;> rfl
  | equ | entry | exportEntry => rw [hk] at hpos; cases hpos
  | _ => cases v.lowWord <;> rfl

theorem Assembly.exists_segment (h : i < a.segmentSize k) :
    ∃ s, a.segments[k]? = some s ∧ s.bytes.size = a.segmentSize k := by
  unfold segmentSize at h ⊢
  cases hs : a.segments[k]? with
  | none => rw [hs] at h; cases h
  | some s => exact ⟨s, rfl, rfl⟩

/-- A patch can be filled in: it is for bytes, and these exist. -/
def Patch.Fillable (p : Patch) (a : Assembly) : Prop := 0 < p.kind.span ∧ p.extent.stop ≤ a.segmentSize p.segment

namespace Patch.Fillable

variable {q : Patch}

section
variable (h : p.Fillable a)
include h

theorem exists_segment : ∃ s, a.segments[p.segment]? = some s ∧ p.extent.stop ≤ s.bytes.size := by
  obtain ⟨hpos, hin⟩ := h
  have hlt : p.extent.start < a.segmentSize p.segment := by
    simp only [extent] at hin ⊢
    omega
  obtain ⟨s, hs, hsize⟩ := Assembly.exists_segment hlt
  exact ⟨s, hs, hsize ▸ hin⟩

theorem congr (hs : b.segments = a.segments) : p.Fillable b := by
  unfold Fillable segmentSize at h ⊢
  rwa [hs]

theorem applyPatch (v : Value) : a.applyPatch p v =
    (p.encode a v).map fun bytes => a.patchBytes p.segment p.extent.start bytes := by
  obtain ⟨s, hs, -⟩ := h.exists_segment
  exact applyPatch_eq hs h.1 v

theorem patchBytes (segment offset : Nat) (bytes : List UInt8) : p.Fillable (a.patchBytes segment offset bytes) := by
  unfold Fillable
  rw [segmentSize_patchBytes]
  exact h

theorem bytes_inside (he : p.encode a v = .ok bytes) : p.extent.start + bytes.length ≤ a.segmentSize p.segment := by
  rw [length_encode he]
  exact h.2

theorem overwritten (hb : a.applyPatch p v = .ok b) :
    ∃ bytes, p.encode a v = .ok bytes ∧ a.Overwritten b p.segment p.extent.start bytes := by
  rw [h.applyPatch] at hb
  cases he : p.encode a v with
  | error _ => rw [he] at hb; cases hb
  | ok bytes =>
    rw [he] at hb
    cases hb
    exact ⟨bytes, rfl, overwritten_patchBytes (h.bytes_inside he)⟩

end

end Patch.Fillable

/-! ## Any order -/

namespace Segment

theorem wordAt_patch (s : Segment) (offset : Nat) (bytes : List UInt8) (n : Nat) :
    (s.patch offset bytes).wordAt n = s.wordAt n := by
  unfold patch
  split <;> rfl

theorem patch_comm (s : Segment) (hx : i + xs.length ≤ s.bytes.size) (hy : j + ys.length ≤ s.bytes.size)
    (h : i + xs.length ≤ j ∨ j + ys.length ≤ i) : (s.patch i xs).patch j ys = (s.patch j ys).patch i xs := by
  have hbytes : ((s.patch i xs).patch j ys).bytes = ((s.patch j ys).patch i xs).bytes := by
    apply Array.ext_getElem?
    intro k
    rw [getElem?_patch _ (by simpa using hy), getElem?_patch _ hx,
      getElem?_patch _ (by simpa using hx), getElem?_patch _ hy]
    by_cases hk : i ≤ k ∧ k < i + xs.length
    · rw [if_neg (by omega), if_pos hk, if_pos hk]
    · rw [if_neg hk, if_neg hk]
  have hframe (s : Segment) (n : Nat) (bs : List UInt8) :
      s.patch n bs = { s with bytes := (s.patch n bs).bytes } := by
    unfold patch
    split <;> rfl
  rw [hframe (s.patch i xs), hframe (s.patch j ys), hbytes, hframe s i, hframe s j]

end Segment

theorem Assembly.patchBytes_comm (a : Assembly) {l : Nat} (hx : i + xs.length ≤ a.segmentSize k)
    (hy : j + ys.length ≤ a.segmentSize l) (h : k = l → i + xs.length ≤ j ∨ j + ys.length ≤ i) :
    (a.patchBytes k i xs).patchBytes l j ys = (a.patchBytes l j ys).patchBytes k i xs := by
  have hsegments : (a.segments.modify k (·.patch i xs)).modify l (·.patch j ys) =
      (a.segments.modify l (·.patch j ys)).modify k (·.patch i xs) := by
    apply Array.ext_getElem?
    intro n
    simp only [Array.getElem?_modify]
    by_cases hk : k = n
    · subst hk
      by_cases hl : l = k
      · subst hl
        unfold segmentSize at hx hy
        cases hs : a.segments[l]? with
        | none => simp
        | some s =>
          rw [hs] at hx hy
          simp only [if_pos, Option.map_some]
          exact congrArg some (s.patch_comm hx hy (h rfl))
      · rw [if_neg hl, if_neg hl]
    · rw [if_neg hk, if_neg hk]
  exact congrArg (fun segments => { a with segments }) hsegments

theorem Patch.encode_patchBytes (p : Patch) (a : Assembly) (segment offset : Nat) (bytes : List UInt8)
    (v : Value) : p.encode (a.patchBytes segment offset bytes) v = p.encode a v := by
  have haddress : ((a.patchBytes segment offset bytes).segments[p.segment]?.map (·.wordAt p.offset)) =
      a.segments[p.segment]?.map (·.wordAt p.offset) := by
    unfold patchBytes
    rw [Array.getElem?_modify]
    split
    · cases a.segments[p.segment]? with
      | none => rfl
      | some s => simp [Segment.wordAt_patch]
    · rfl
  unfold encode
  rw [haddress]

theorem applyPatch_comm {q : Patch} (hp : p.Fillable a) (hq : q.Fillable a)
    (h : p.extent.Apart q.extent) (v w : Value) (b : Assembly) : (a.applyPatch p v).bind (·.applyPatch q w) = .ok b ↔
      (a.applyPatch q w).bind (·.applyPatch p v) = .ok b := by
  rw [hp.applyPatch, hq.applyPatch]
  cases hv : p.encode a v with
  | error _ =>
    cases hw : q.encode a w with
    | error _ => simp [Except.map, Except.bind]
    | ok ys =>
      simp [Except.map, Except.bind, (hp.patchBytes _ _ _).applyPatch, Patch.encode_patchBytes, hv]
  | ok xs =>
    cases hw : q.encode a w with
    | error _ =>
      simp [Except.map, Except.bind, (hq.patchBytes _ _ _).applyPatch, Patch.encode_patchBytes, hw]
    | ok ys =>
      simp only [Except.map, Except.bind, (hp.patchBytes _ _ _).applyPatch,
        (hq.patchBytes _ _ _).applyPatch, Patch.encode_patchBytes, hv, hw]
      rw [a.patchBytes_comm (hp.bytes_inside hv) (hq.bytes_inside hw)]
      intro hs
      have hx := Patch.length_encode hv
      have hy := Patch.length_encode hw
      rw [Extent.apart_iff] at h
      have := h hs (Nat.lt_add_of_pos_right hp.1) (Nat.lt_add_of_pos_right hq.1)
      simp only [Patch.extent] at this ⊢
      omega

/-- Values put where they belong, one after the other. -/
def Assembly.applyAll (a : Assembly) (settled : List (Patch × Value)) : Except Fault Assembly :=
  settled.foldlM (fun a entry => a.applyPatch entry.1 entry.2) a

theorem bind_ok_congr {ε α β : Type} {x y : Except ε α} (h : ∀ v, x = .ok v ↔ y = .ok v)
    (f : α → Except ε β) (r : β) : x.bind f = .ok r ↔ y.bind f = .ok r := by
  cases x with
  | ok v => rw [(h v).1 rfl]
  | error _ =>
    cases y with
    | ok v => cases (h v).2 rfl
    | error _ => simp [Except.bind]

theorem applyAll_cons (a : Assembly) (entry : Patch × Value) (rest : List (Patch × Value)) :
    a.applyAll (entry :: rest) = (a.applyPatch entry.1 entry.2).bind (·.applyAll rest) := rfl

theorem applyAll_perm {settled order : List (Patch × Value)} (hperm : settled.Perm order)
    (hin : ∀ entry ∈ settled, entry.1.Fillable a)
    (hapart : settled.Pairwise fun x y => x.1.extent.Apart y.1.extent) (b : Assembly) :
    a.applyAll settled = .ok b ↔ a.applyAll order = .ok b := by
  induction hperm generalizing a with
  | nil => exact Iff.rfl
  | cons entry _ ih =>
    rw [List.pairwise_cons] at hapart
    have hfirst := hin entry (by simp)
    rw [applyAll_cons, applyAll_cons, hfirst.applyPatch]
    cases entry.1.encode a entry.2 with
    | error _ => exact Iff.rfl
    | ok bytes => exact ih (fun x hx => (hin x (by simp [hx])).patchBytes _ _ _) hapart.2
  | swap x y rest =>
    rw [List.pairwise_cons] at hapart
    have hcomm := applyPatch_comm (hin y (by simp)) (hin x (by simp)) (hapart.1 x (by simp)) y.2 x.2
    have htwo (p q : Patch × Value) : a.applyAll (p :: q :: rest) =
        ((a.applyPatch p.1 p.2).bind (·.applyPatch q.1 q.2)).bind (·.applyAll rest) := by
      rw [applyAll_cons]
      cases a.applyPatch p.1 p.2 <;> rfl
    rw [htwo, htwo]
    exact bind_ok_congr hcomm _ b
  | trans h₁ _ ih₁ ih₂ =>
    exact (ih₁ hin hapart).trans (ih₂ (fun entry hm => hin entry (h₁.mem_iff.2 hm))
      ((h₁.pairwise_iff fun h => h.symm).1 hapart))

/-- In every state of a run, the patches for bytes name a segment that exists and bytes inside it: when one
of them is applied, exactly these bytes are overwritten with the encoding of its value. No two of them fill the
same byte, so any of them can be applied in any order with the same outcome. -/
theorem waiting_patches_disjoint {a : Assembly} (ha : Arises a) (ho : a.overrun = false) :
    (∀ p ∈ a.pending, 0 < p.kind.span → (∃ s, a.segments[p.segment]? = some s ∧ p.extent.stop ≤ s.bytes.size) ∧
      ∀ v b, a.applyPatch p v = .ok b →
        ∃ bytes, p.encode a v = .ok bytes ∧ a.Overwritten b p.segment p.extent.start bytes) ∧
    (a.pending.toList.Pairwise fun p q => p.extent.Apart q.extent) ∧
    (∀ settled order : List (Patch × Value), (settled.map Prod.fst).Sublist a.pending.toList →
      (∀ entry ∈ settled, 0 < entry.1.kind.span) → settled.Perm order →
      ∀ b, a.applyAll settled = .ok b ↔ a.applyAll order = .ok b) ∧
    ∀ depth lines, Arises ((walkDepth depth lines).run a).2 := by
  have hplace := ha.inPlace ho
  refine ⟨fun p hp hpos => ?_, hplace.apart, fun settled order hsub hpos hperm b => ?_, ha.walkDepth⟩
  · have hfill : p.Fillable a := ⟨hpos, hplace.inside p hp⟩
    exact ⟨hfill.exists_segment, fun v b => hfill.overwritten⟩
  · have happart := hplace.apart.sublist hsub
    rw [List.pairwise_map] at happart
    refine applyAll_perm hperm (fun entry hm => ⟨hpos entry hm, ?_⟩) happart b
    exact hplace.inside _ (Array.mem_toList_iff.1 (hsub.mem (List.mem_map_of_mem hm)))

/-- A branch and an instance of a structure that both wait for a label, and an override of the word
in the instance that waits for it too. -/
def linesWithField : List SourceLine :=
  let later : Expr := .symbol ⟨["LATER"], false⟩
  [⟨⟨0, 0⟩, some "s", some (.statement .structDef), none⟩, ⟨⟨0, 1⟩, some "f", some (.pragma (.defw [later])), none⟩,
    ⟨⟨0, 2⟩, none, some (.statement .endStruct), none⟩,
    ⟨⟨0, 3⟩, none, some (.op .jr [.expr later]), none⟩,
    ⟨⟨0, 4⟩, none, some (.invoke "s" []), none⟩,
    ⟨⟨0, 5⟩, none, some (.field (some "f") (.defw [later])), none⟩]

/-- The branch and the word of the override wait, for bytes that lie side by side. -/
theorem waiting_patches_disjoint_field :
    let a := ((walkDepth 0 linesWithField).run (.new {})).2
    a.pending.toList.map (fun p => (p.kind, p.extent)) = [(.branch, ⟨0, 1, 2⟩), (.fieldWord, ⟨0, 2, 4⟩)] ∧
    (∀ p ∈ a.pending, 0 < p.kind.span → ∃ s, a.segments[p.segment]? = some s ∧ p.extent.stop ≤ s.bytes.size) ∧
    a.pending.toList.Pairwise fun p q => p.extent.Apart q.extent := by
  have ha : Arises ((walkDepth 0 linesWithField).run (.new {})).2 := (Arises.new {}).walkDepth 0 linesWithField
  have ho : ((walkDepth 0 linesWithField).run (.new {})).2.overrun = false := by decide +kernel
  obtain ⟨hinside, hapart, -⟩ := waiting_patches_disjoint ha ho
  exact ⟨by decide +kernel, fun p hp hpos => (hinside p hp hpos).1, hapart⟩

end SpectrumAsm
