/-
Blocks inside blocks.

Lines are well nested if every line that opens a block is followed by the line that closes it, with
well-nested lines in between. A block around them ends with the line behind them, and a choice is cut at those
heads of sections that lie in no block inside it.
-/
import SpectrumAsm.Assembly.Walk
import SpectrumAsm.Proofs.Runs

namespace SpectrumAsm

open List

/-! ## Well-nested lines -/

/-- Lines of which each one that opens a block is followed by the line that closes it. Lines in no inner block
have a property. -/
inductive Bracketed : (SourceLine → Prop) → List SourceLine → Prop where
  | nil {P : SourceLine → Prop} : Bracketed P []
  | line {P : SourceLine → Prop} {l : SourceLine} {ls : List SourceLine} (hopens : l.opens = none)
    (hcloses : l.closes = none) (hl : P l) (hrest : Bracketed P ls) : Bracketed P (l :: ls)
  | block {P : SourceLine → Prop} {kind : Block} {start close : SourceLine} {body ls : List SourceLine}
    (hstart : start.opens = some kind) (hclose : close.closes = some kind) (hbody : Bracketed (fun _ => True) body)
    (hrest : Bracketed P ls) : Bracketed P (start :: (body ++ close :: ls))

variable {P : SourceLine → Prop} {body : List SourceLine}

theorem Bracketed.mono {Q : SourceLine → Prop} (h : Bracketed P body) (hPQ : ∀ l, P l → Q l) : Bracketed Q body := by
  induction h generalizing Q with
  | nil => exact .nil
  | line hopens hcloses hl _ ih => exact .line hopens hcloses (hPQ _ hl) (ih hPQ)
  | block hstart hclose hbody _ _ ih => exact .block hstart hclose hbody (ih hPQ)

theorem SourceLine.opens_of_closes {line : SourceLine} {kind : Block} (h : line.closes = some kind) :
    line.opens = none := by
  obtain ⟨pos, label, _ | s, comment⟩ := line
  · rfl
  · cases s with
    | statement s => cases s <;> first | rfl | cases h
    | _ => rfl

def inFront (lines : List SourceLine) :
    List SourceLine × SourceLine × List SourceLine → List SourceLine × SourceLine × List SourceLine
  | (body, close, rest) => (lines ++ body, close, rest)

theorem splitBlock_bracketed (h : Bracketed P body) (block : Block) (inner : List Block) (rest : List SourceLine) :
    splitBlock block inner (body ++ rest) = (splitBlock block inner rest).map (inFront body) := by
  induction h generalizing inner rest with
  | nil => exact Option.map_id'.symm
  | line hopens hcloses _ _ ih =>
    rw [cons_append, splitBlock, hopens, hcloses]
    dsimp only
    rw [ih, Option.map_map]
    rfl
  | @block P kind start close body ls hstart hclose _ _ ihbody ih =>
    have hend : splitBlock block (kind :: inner) (close :: (ls ++ rest)) =
        (splitBlock block inner (ls ++ rest)).map (inFront [close]) := by
      rw [splitBlock, SourceLine.opens_of_closes hclose, hclose]
      dsimp only
      rw [beq_self_eq_true, if_pos rfl]
      rfl
    rw [cons_append, append_assoc, cons_append, splitBlock, hstart]
    dsimp only
    rw [ihbody, hend, ih, Option.map_map, Option.map_map, Option.map_map]
    congr 1
    funext split
    simp [inFront]

theorem cutSections_line {depth : Nat} {l : SourceLine} (hopens : l.opens = none) (hcloses : l.closes = none)
    (hcut : depth = 0 → l.sectionHeader? = none) (ls : List SourceLine) :
    cutSections depth (l :: ls) = (l :: (cutSections depth ls).1, (cutSections depth ls).2) := by
  conv => lhs; unfold cutSections
  rw [hopens, hcloses]
  cases depth with
  | zero => rw [hcut rfl]; rfl
  | succ depth => cases l.sectionHeader? <;> rfl

theorem cutSections_bracketed (h : Bracketed P body) {depth : Nat}
    (hcut : depth = 0 → ∀ l, P l → l.sectionHeader? = none) (rest : List SourceLine) :
    cutSections depth (body ++ rest) = (body ++ (cutSections depth rest).1, (cutSections depth rest).2) := by
  induction h generalizing depth rest with
  | nil => rfl
  | line hopens hcloses hl _ ih =>
    rw [cons_append, cutSections_line hopens hcloses fun hd => hcut hd _ hl, ih hcut]
    rfl
  | @block P kind start close body ls hstart hclose _ _ ihbody ih =>
    have hend : cutSections (depth + 1) (close :: (ls ++ rest)) =
        (close :: (ls ++ (cutSections depth rest).1), (cutSections depth rest).2) := by
      conv => lhs; unfold cutSections
      rw [SourceLine.opens_of_closes hclose, hclose]
      dsimp only [Option.isSome_some]
      rw [if_neg (by simp), if_pos rfl, Nat.add_sub_cancel, ih hcut]
    rw [cons_append, append_assoc, cons_append]
    conv => lhs; unfold cutSections
    rw [hstart]
    dsimp only [Option.isSome_some]
    rw [if_pos rfl, ihbody (by simp), hend]
    simp

def Section.lines (s : Section) : List SourceLine := s.line :: s.body

/-- Lines that are no heads of sections, apart from those in inner blocks. -/
abbrev Uncut : List SourceLine → Prop := Bracketed fun l => l.sectionHeader? = none

theorem cutSections_parts (h : Bracketed P body) :
    (cutSections 0 body).1 ++ (cutSections 0 body).2.flatMap Section.lines = body ∧ Uncut (cutSections 0 body).1 ∧
      ∀ s ∈ (cutSections 0 body).2, s.line.sectionHeader? = some s.header ∧ Uncut s.body := by
  induction h with
  | nil => exact ⟨rfl, .nil, fun s hs => absurd hs not_mem_nil⟩
  | @line P l ls hopens hcloses _ _ ih =>
    obtain ⟨hjoin, hfirst, hsections⟩ := ih
    cases hheader : l.sectionHeader? with
    | none =>
      rw [cutSections_line hopens hcloses fun _ => hheader]
      exact ⟨congrArg (l :: ·) hjoin, .line hopens hcloses hheader hfirst, hsections⟩
    | some header =>
      have hhead : cutSections 0 (l :: ls) = ([], ⟨l, header, (cutSections 0 ls).1⟩ :: (cutSections 0 ls).2) := by
        conv => lhs; unfold cutSections
        rw [hopens, hcloses, hheader]
        rfl
      rw [hhead]
      refine ⟨?_, .nil, forall_mem_cons.2 ⟨⟨hheader, hfirst⟩, hsections⟩⟩
      simpa [Section.lines] using hjoin
  | @block P kind start close body ls hstart hclose hbody _ _ ih =>
    obtain ⟨hjoin, hfirst, hsections⟩ := ih
    have hblock : Uncut (start :: (body ++ [close])) := .block hstart hclose hbody .nil
    have hsplit : start :: (body ++ close :: ls) = start :: (body ++ [close]) ++ ls := by simp
    rw [hsplit, cutSections_bracketed hblock fun _ _ hl => hl]
    refine ⟨by rw [append_assoc, hjoin], ?_, hsections⟩
    simpa using Bracketed.block (P := fun l => l.sectionHeader? = none) hstart hclose hbody hfirst

/-! ## Walks line by line -/

section
variable {a : Assembly} {expand : Option LineWalker} {lines : List SourceLine}

theorem walkLines_interrupted (h : a.isInterrupted = true) (n : Nat) : (walkLines expand n lines).run a = ((), a) := by
  unfold walkLines
  split
  · rfl
  · rfl
  · show StateT.run (if a.isInterrupted then _ else _ : Walk Unit) a = _
    rw [h]
    rfl

theorem walkLines_single {n : Nat} {line : SourceLine} (ha : a.isInterrupted = false) (hr : line.role = .single) :
    (walkLines expand (n + 1) (line :: lines)).run a =
      (walkLines expand n lines).run ((walkSingle expand line).run (a.moveTo line.pos)).2 := by
  rw [walkLines]
  show StateT.run (if a.isInterrupted then _ else _ : Walk Unit) a = _
  rw [ha, hr]
  rfl

end

/-! ## The section that is walked -/

def Section.ask (s : Section) (a : Assembly) : Except Fault Bool × Assembly :=
  (isChosen s.header).run.run { a with pos := s.line.pos }

/-- The guards of sections asked one after the other, none of which is true. -/
inductive Declined : Assembly → List Section → Assembly → Prop where
  | nil {a : Assembly} : Declined a [] a
  | cons {a b c : Assembly} {s : Section} {ss : List Section} (h : s.ask a = (.ok false, b))
    (hrest : Declined b ss c) : Declined a (s :: ss) c

/-- A run walks the first section whose guard is true, and no other. Nothing is walked if a guard before has a
fault, which is reported, or if no guard is true. -/
def WalksFirst (walk : LineWalker) (sections : List Section) (a b : Assembly) : Prop :=
  (∃ before s after c d, sections = before ++ s :: after ∧ Declined a before c ∧
    (s.ask c = (.ok true, d) ∧ b = ((walk s.body).run d).2 ∨
      ∃ fault, s.ask c = (.error fault, d) ∧ b = d.report fault)) ∨
  Declined a sections b

theorem run_pickIf (header : Statement) (lines : List SourceLine) (later : Walk (Option (List SourceLine)))
    (a : Assembly) : (pickIf header lines later).run a = match (isChosen header).run.run a with
      | (.ok true, b) => (some lines, b)
      | (.ok false, b) => later.run b
      | (.error fault, b) => (none, b.report fault) := by
  unfold pickIf
  rw [Walk.run_bind]
  rcases StateT.run (isChosen header).run a with ⟨fault | _ | _, b⟩ <;> rfl

theorem run_walkChoice (walk : LineWalker) (header : Statement) (body : List SourceLine) (a : Assembly) :
    ((walkChoice walk header body).run a).2 = match (pickLines header body).run a with
      | (none, b) => b
      | (some lines, b) => ((walk lines).run b).2 := by
  unfold walkChoice
  rw [Walk.run_bind]
  rcases (pickLines header body).run a with ⟨_ | lines, b⟩ <;> rfl

theorem pickSection_first (walk : LineWalker) (sections : List Section) (a : Assembly) :
    WalksFirst walk sections a (match (pickSection sections).run a with
      | (none, b) => b
      | (some lines, b) => ((walk lines).run b).2) := by
  induction sections generalizing a with
  | nil => exact .inr .nil
  | cons s sections ih =>
    have hrun : (pickSection (s :: sections)).run a = _ := run_pickIf s.header s.body _ { a with pos := s.line.pos }
    rw [hrun]
    rcases hask : s.ask a with ⟨fault | _ | _, b⟩ <;> unfold Section.ask at hask <;> rw [hask]
    · exact .inl ⟨[], s, sections, a, b, rfl, .nil, .inr ⟨fault, hask, rfl⟩⟩
    · rcases ih b with ⟨before, s', after, c, d, rfl, hbefore, hend⟩ | hnone
      · exact .inl ⟨s :: before, s', after, c, d, rfl, .cons hask hbefore, hend⟩
      · exact .inr (.cons hask hnone)
    · exact .inl ⟨[], s, sections, a, b, rfl, .nil, .inl ⟨hask, rfl⟩⟩

theorem checkSections_sound {header : Statement} {sections : List Section}
    (hlabels : ∀ s ∈ sections, s.line.label = none)
    (hlast : .otherwise ∉ (header :: sections.map (·.header)).dropLast) (a : Assembly) :
    ∃ pos, (checkSections header sections).run a = (true, { a with pos }) := by
  induction sections generalizing header a with
  | nil => exact ⟨a.pos, rfl⟩
  | cons s sections ih =>
    obtain ⟨hlabel, hlabels⟩ := forall_mem_cons.1 hlabels
    obtain ⟨hheader, hlast⟩ := not_or.1 (mt mem_cons.2 hlast)
    obtain ⟨pos, hrun⟩ := ih hlabels hlast { a with pos := s.line.pos }
    have hgoesOn := congrArg (fun r : Bool × Assembly => (!false && !false && r.1, r.2)) hrun
    refine ⟨pos, ?_⟩
    unfold checkSections
    rw [hlabel]
    cases header with
    | otherwise => exact absurd rfl hheader
    | _ => exact hgoesOn

/-- Blocks around well-nested lines end behind them. A choice around such lines is cut at the heads of
sections in no inner block. If nothing is wrong with its sections the first one whose guard is true is walked,
and otherwise none. -/
theorem bracketed_blocks (h : Bracketed (fun _ => True) body) : (∀ block close rest, close.closes = some block →
      splitBlock block [] (body ++ close :: rest) = some (body, close, rest)) ∧
    ((cutSections 0 body).1 ++ (cutSections 0 body).2.flatMap Section.lines = body ∧ Uncut (cutSections 0 body).1 ∧
      ∀ s ∈ (cutSections 0 body).2, s.line.sectionHeader? = some s.header ∧ Uncut s.body) ∧
    ∀ (walk : LineWalker) (header : Statement) (a b : Assembly) (first : List SourceLine) (sections : List Section)
      (sound : Bool), cutSections 0 body = (first, sections) → (checkSections header sections).run a = (sound, b) →
      ((∀ s ∈ sections, s.line.label = none) → .otherwise ∉ (header :: sections.map (·.header)).dropLast →
        sound = true ∧ ∃ pos, b = { a with pos }) ∧
      (sound = true → WalksFirst walk (⟨⟨b.pos, none, none, none⟩, header, first⟩ :: sections) b
        ((walkChoice walk header body).run a).2) ∧ (sound = false → ((walkChoice walk header body).run a).2 = b) ∧
      ∀ s ∈ sections, s.header = .otherwise → ∀ c, s.ask c = (.ok true, { c with pos := s.line.pos }) := by
  refine ⟨fun block close rest hclose => ?_, cutSections_parts h, ?_⟩
  · have hend : splitBlock block [] (close :: rest) = some ([], close, rest) := by
      rw [splitBlock, SourceLine.opens_of_closes hclose, hclose]
      dsimp only
      rw [beq_self_eq_true, if_pos rfl]
    rw [splitBlock_bracketed h, hend]
    simp [inFront]
  · intro walk header a b first sections sound hcut hcheck
    rw [run_walkChoice]
    unfold pickLines
    rw [hcut]
    rw [Walk.run_bind, hcheck]
    refine ⟨fun hlabels hlast => ?_, ?_, ?_, fun s _ hs c => ?_⟩
    · obtain ⟨pos, hrun⟩ := checkSections_sound hlabels hlast a
      cases hcheck.symm.trans hrun
      exact ⟨rfl, pos, rfl⟩
    · rintro rfl
      exact pickSection_first walk (⟨⟨b.pos, none, none, none⟩, header, first⟩ :: sections) b
    · rintro rfl
      rfl
    · unfold Section.ask
      rw [hs]
      rfl

/-- The choice inside of a choice has an alternative of its own. -/
theorem bracketed_blocks_inner :
    let line (s : Statement) : SourceLine := ⟨⟨0, 0⟩, none, some (.statement s), none⟩
    let body := [line (.ifTrue (.bool true)), line .otherwise, line .endIf, line .otherwise]
    splitBlock .choice [] (body ++ [line .endIf]) = some (body, line .endIf, []) ∧
      (cutSections 0 body).1 ++ (cutSections 0 body).2.flatMap Section.lines = body ∧
      (cutSections 0 body).2.length = 1 := by
  intro line body
  have hbody : Bracketed (fun _ => True) body :=
    @Bracketed.block _ .choice (line (.ifTrue (.bool true))) (line .endIf) [line .otherwise] [line .otherwise] rfl rfl
      (.line rfl rfl trivial .nil) (.line rfl rfl trivial .nil)
  exact ⟨(bracketed_blocks hbody).1 .choice (line .endIf) [] rfl, (bracketed_blocks hbody).2.1.1, rfl⟩

end SpectrumAsm
