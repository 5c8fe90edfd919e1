/-
Which overrides of fields are refused, and what a refused one leaves behind.

The data of an override is put behind the instance before its size is checked. So there has to be room for it
there, even if the instance has room for it; and if it is refused, it is taken back with its patches.
-/
import SpectrumAsm.Proofs.Room

namespace SpectrumAsm

open Assembly

variable {a b : Assembly} {n : Nat} {p : Pragma} {code : Code} {i o : StructInstance} {name : Option String}

namespace Assembly

theorem length_bytesFrom (a : Assembly) (segment offset : Nat) :
    (a.bytesFrom segment offset).length = a.segmentSize segment - offset := by
  unfold bytesFrom segmentSize
  cases a.segments[segment]? <;> simp

theorem segmentSize_emit (h : a.emit code = (.ok (), b)) :
    b.segmentSize a.lastSegment = a.segmentSize a.lastSegment + code.bytes.size := by
  by_cases hempty : code.bytes = #[]
  · simp only [emit, hempty, Array.isEmpty_empty, if_true, Prod.mk.injEq, true_and] at h
    simp [hempty, h]
  · simpa using (Emitted.of_ne h hempty).size a.lastSegment

theorem openSegment_with (a : Assembly) (origin : UInt16) (opened : Option StructInstance) :
    { a.openSegment with origin, opened } = openSegment { a with origin, opened } := by
  unfold openSegment
  split <;> rfl

end Assembly

/-- Whether an override is accepted depends on its size and that of the structure, but also on the memory behind
the instance, where its data is put first. An instance may be shorter than its structure: an override that is accepted
and does not lie inside of its bytes sets `overrun`. -/
theorem override_acceptance (ha : Reachable a) (hi : a.opened = some i) (hseek : i.seek name = .ok o)
    (hp : p.emitsData = true) (hdata : p.Brings (atField { a with opened := some o } o) n) :
    ((overrideField name p).run.run a).1 = (if 0 < n ∧ memoryEnd < a.stop + n then .error .addressOverflow
      else if o.size < o.cursor + n then .error (.structOverflow o.name o.size (o.cursor + n))
      else .ok ()) ∧
    (((overrideField name p).run.run a).1 = .ok () → ((overrideField name p).run.run a).2.overrun =
      (a.overrun || decide (a.segmentSize o.segment < o.start + o.cursor + n))) := by
  obtain ⟨code, b, hdata, rfl⟩ := hdata
  have hfile : p.isFile = false := by cases p <;> first | rfl | cases hp
  obtain ⟨hasked, hput, hfull⟩ := Step.Puts.pragma none p _ code b hdata
  rw [hfile] at hput hfull
  have hroom : (atField { a with opened := some o } o).HasRoom false code.bytes.size ↔
      ¬ (0 < code.bytes.size ∧ memoryEnd < a.stop + code.bytes.size) := by
    show code.bytes.size = 0 ∨ a.stop + code.bytes.size ≤ memoryEnd ∧ (false = true → _) ↔ _
    simp only [Bool.false_eq_true, false_imp_iff, and_true]
    omega
  rw [run_overrideField hi, hseek]
  dsimp only
  rw [if_pos hp, run_putOverride]
  by_cases h : 0 < code.bytes.size ∧ memoryEnd < a.stop + code.bytes.size
  · obtain ⟨fault, c, hc, hfault⟩ := hfull (hroom.not.2 (not_not.2 h))
    rw [hc, if_pos h, hfault rfl]
    exact ⟨rfl, fun h => by cases h⟩
  obtain ⟨c, hc, he⟩ := hput (hroom.2 h)
  obtain ⟨cursor, rfl⟩ := StructInstance.seek_ok hseek
  have hlast : i.segment = b.lastSegment := by
    rw [ha.instanceInPlace i hi, (Noted.ofAsked hasked).lastSegment]
    rfl
  have hsize : c.segmentSize i.segment - a.segmentSize i.segment = code.bytes.size := by
    have hb : b.segmentSize i.segment = a.segmentSize i.segment := by
      unfold segmentSize
      rw [hasked.segments]
      rfl
    rw [← hb, hlast, segmentSize_emit he]
    omega
  have hkept : c.overrun = a.overrun := by
    obtain ⟨_, _, hemitted⟩ := b.emit_eq code
    rw [he] at hemitted
    exact (congrArg overrun hemitted).trans (Noted.ofAsked hasked).overrun
  rw [hc, if_neg h, ← hsize, ← length_bytesFrom]
  dsimp only [moveOverride]
  split
  · exact ⟨(if_pos ‹_›).symm, fun h => by cases h⟩
  · refine ⟨(if_neg ‹_›).symm, fun _ => ?_⟩
    split
    · next hle =>
      refine hkept.trans ((Bool.or_false _).symm.trans (congrArg _ ?_))
      exact (decide_eq_false (Nat.not_lt.2 hle)).symm
    · next hlt =>
      refine (Bool.or_true _).symm.trans (congrArg _ ?_)
      exact (decide_eq_true (Nat.not_le.1 hlt)).symm

/-- An instance of two bytes that is open for overrides. -/
def withInstanceAt (start : UInt16) : Assembly :=
  { ((new { options := { defaultStart := start } }).emit (.ofBytes [0, 0])).2 with
    opened := some { name := "S", size := 2, fields := {}, segment := 0, start := 0, cursor := 0 } }

theorem withInstanceAt_reachable (start : UInt16) : Reachable (withInstanceAt start) := by
  refine ⟨_, .tail (.single (.emit (.ofBytes _ [0, 0]))) (.openInstance ?_)⟩
  rw [lastSegment_emit]
  rfl

/-- An override of the first byte is accepted in one place, and refused at the end of the memory. -/
theorem override_acceptance_end :
    ((overrideField none (.defb [.int 5])).run.run (withInstanceAt 0x8000)).1 = .ok () ∧
      ((overrideField none (.defb [.int 5])).run.run (withInstanceAt 0x8000)).2.overrun = false ∧
      ((overrideField none (.defb [.int 5])).run.run (withInstanceAt 0xFFFE)).1 = .error .addressOverflow := by
  have hput (start : UInt16) :
      ((overrideField none (.defb [.int 5])).run.run (withInstanceAt start)).1 = _ ∧ _ :=
    override_acceptance (withInstanceAt_reachable start) rfl rfl rfl ⟨_, _, rfl, rfl⟩
  have hok := (hput 0x8000).1.trans rfl
  exact ⟨hok, ((hput 0x8000).2 hok).trans (by decide +kernel), (hput 0xFFFE).1.trans rfl⟩

/-- An override that is refused leaves nothing behind: no byte, no patch, no symbol and nothing else has
changed, and an instance stays open, with its cursor at the field. -/
theorem refused_override_undone {fault : Fault} (ha : Reachable a)
    (h : (overrideField name p).run.run a = (.error fault, b)) :
    a.Undone { b with origin := a.origin, opened := a.opened } ∧
      ∃ cursor, b.opened = a.opened.map fun i => { i with cursor } := by
  cases hi : a.opened with
  | none =>
    rw [run_overrideField_outside hi] at h
    cases h
    exact ⟨hi ▸ .ofAsked (.refl a), 0, hi⟩
  | some i =>
    rw [run_overrideField hi] at h
    cases hseek : i.seek name with
    | error stop =>
      rw [hseek] at h
      cases h
      exact ⟨hi ▸ .ofAsked (.refl a), i.cursor, hi⟩
    | ok o =>
      obtain ⟨cursor, rfl⟩ := StructInstance.seek_ok hseek
      rw [hseek] at h
      dsimp only at h
      split at h
      · next hp =>
        obtain ⟨_, ⟨random, used, rfl⟩, ⟨-, hr⟩ | ⟨_, _, _, -, -, -, -, -, hr, -⟩⟩ :=
          putOverride_cases (o := { i with cursor }) (a := { a with opened := some { i with cursor } }) hp
            (ha.instanceInPlace i hi)
        · have hasked : Asked a { a with random, symbols := { a.symbols with used } } := ⟨random, used, rfl⟩
          rw [h] at hr
          rcases hr with rfl | rfl
          · exact ⟨hi ▸ .ofAsked hasked, cursor, rfl⟩
          · refine ⟨?_, cursor, ?_⟩
            · rw [← hi, openSegment_with]
              exact .asked_trans hasked (.openSegment _)
            · obtain ⟨_, ho⟩ := openSegment_eq _
              rw [ho]
              rfl
        · rw [h] at hr
          cases hr
      · cases h
        exact ⟨hi ▸ .ofAsked (.refl a), cursor, rfl⟩

/-- Two words that wait are too long for the instance: it is open as before, and no patch is left. -/
theorem refused_override_undone_words : ∃ fault b, (overrideField none
    (.defw [.symbol ⟨["LATER"], false⟩, .symbol ⟨["LATER"], false⟩])).run.run (withInstanceAt 0x8000) =
      (.error fault, b) ∧ b.pending = #[] ∧ b.opened.isSome := by
  have h : (overrideField none
    (.defw [.symbol ⟨["LATER"], false⟩, .symbol ⟨["LATER"], false⟩])).run.run (withInstanceAt 0x8000) =
      (.error (.structOverflow "S" 2 4), _) := rfl
  obtain ⟨hundone, cursor, hopened⟩ := refused_override_undone (withInstanceAt_reachable _) h
  obtain ⟨_, _, hrest⟩ := hundone.rest
  exact ⟨_, _, h, congrArg pending hrest, by rw [hopened]; rfl⟩

end SpectrumAsm
