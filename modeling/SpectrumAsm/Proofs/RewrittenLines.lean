/-
Programs that are rewritten.

Names are put into another case, a counted loop whose lines only put bytes into the program is replaced by its
lines, as many times as it has passes, and a label on a line of its own is put on the next line. `Rewritten`
relates a program to the rewritten one.
-/
import SpectrumAsm.Proofs.Blocks
import SpectrumAsm.Proofs.RecasedSyntax

namespace SpectrumAsm

open List Text SourceLine Bindings

variable {body lines ls ms : List SourceLine} {count : Int64} {l m : SourceLine} {copies : List (List SourceLine)}

/-! ## Lines that are the same in every pass -/

mutual
/-- An expression that means the same in every pass of a loop: it does not use the number of the pass,
and it has parameters of macros only if these are `free` of that number too. -/
def Expr.Steady (free : Prop) : Expr → Prop
  | .counter => False
  | .param _ => free
  | .unary _ arg => arg.Steady free
  | .binary _ left right => left.Steady free ∧ right.Steady free
  | .cond test yes no => test.Steady free ∧ yes.Steady free ∧ no.Steady free
  | .call _ args => Expr.AllSteady free args
  | _ => True
def Expr.AllSteady (free : Prop) : List Expr → Prop
  | [] => True
  | e :: es => e.Steady free ∧ Expr.AllSteady free es
end

def Operand.Steady (free : Prop) : Operand → Prop
  | .param _ => free
  | o => ∀ e, o.expr? = some e → e.Steady free

/-- A line that only puts bytes into the program, the same in every pass. -/
structure Stmt.Plain (free : Prop) (s : Stmt) : Prop where
  emits : (∃ m operands, s = .op m operands) ∨ ∃ p, s = .pragma p ∧ p.emitsData = true
  operands : ∀ o ∈ s.operands, o.Steady free
  exprs : ∀ e ∈ s.exprs, e.Steady free

/-- A line without a label that only puts bytes into the program. -/
structure SourceLine.Plain (free : Prop) (line : SourceLine) : Prop where
  label : line.label = none
  stmt : ∃ s, line.stmt = some s ∧ s.Plain free

/-- No argument the line passes to a macro uses the number of a pass, as far as that matters. -/
def SourceLine.PassesSteady (free : Prop) (line : SourceLine) : Prop :=
  free → ∀ name args, line.stmt = some (.invoke name args) → ∀ o ∈ args, o.Steady free

/-- Lines that say the same and stand in the same file. -/
structure SourceLine.Same (l m : SourceLine) : Prop where
  file : m.pos.file = l.pos.file
  label : m.label = l.label
  stmt : m.stmt = l.stmt

/-- The line that opens a loop of so many passes. -/
def SourceLine.OpensLoop (count : Int64) (line : SourceLine) : Prop :=
  line.label = none ∧ line.stmt = some (.statement (.loop (.int count)))

def SourceLine.ClosesLoop (line : SourceLine) : Prop := line.label = none ∧ line.stmt = some (.statement .endLoop)

def SourceLine.Filled (line : SourceLine) : Prop := ∀ s, line.stmt = some s → s.hasParam = false

/-- Whether a line that says so takes or defines the label that waits before it. -/
def Stmt.bindsLabel : Stmt → Bool
  | .op _ _ | .pragma _ | .invoke _ _ | .field _ _ => true
  | .directive _ => false
  | .statement s =>
    match s with
    | .breakLoop | .continueLoop | .locals _ => true
    | .moduleDef name => name.isNone
    | s => s.opens.isSome

/-! ## Programs that are rewritten -/

theorem upcase_id (name : String) : upcase (id name) = upcase name := rfl

/-- How a program is rewritten, and what is known of it. -/
structure Rewriting where
  /-- names in another case -/
  case : String → String
  upcase_case : ∀ name, upcase (case name) = upcase name
  /-- every line stays where it is -/
  exact : Prop
  /-- no argument of a macro uses the number of a pass -/
  free : Prop
  /-- no line that is walked has a parameter in it -/
  filled : Prop
  /-- the labels that may be put on the next line -/
  hung : SourceLine → Prop
  /-- what is not reported in the first program -/
  bad : Diagnostic → Prop
  loud : filled → ¬∀ d, bad d
  /-- the names of the files -/
  names : Array String
  /-- what was reported before -/
  old : Array Diagnostic

namespace Rewriting

variable (K : Rewriting)

def Quiet : Prop := ∀ d, K.bad d

/-- Loops may be written out. -/
structure Unrolls : Prop where
  quiet : K.Quiet
  inexact : ¬K.exact
  case : K.case = id

/-- The same with lines that may have parameters, as those of macros have. -/
def loose : Rewriting := { K with filled := False, loud := False.elim }

def SamePos (p q : Position) : Prop := q.file = p.file ∧ (K.exact → q = p)

/-- Lines that say the same in another case. -/
structure Line (l m : SourceLine) : Prop where
  pos : K.SamePos l.pos m.pos
  label : m.label = l.label.map K.case
  stmt : m.stmt = l.stmt.map (Stmt.renamed K.case)
  filled : K.filled → l.Filled

/-- A label on a line of its own is put on the next line, which has none. If that line opens a block, it is known to
be closed. -/
structure Joins (label l m : SourceLine) : Prop where
  hung : K.hung label
  inexact : ¬K.exact
  bare : label.stmt = none
  name : ∃ name, label.label = some name ∧ m.label = some (K.case name)
  unlabelled : l.label = none
  file : m.pos.file = l.pos.file
  stmt : ∃ s, l.stmt = some s ∧ m.stmt = some (s.renamed K.case) ∧ s.bindsLabel = true ∧ s.hasParam = false
  closed : ∀ closer, K.bad ⟨.missingEnd closer, SourceTree.fileName K.names l.pos.file, l.pos.line⟩

/-- A loop around plain lines, and copies of the lines in its place, one for each pass. -/
structure WritesOut (K : Rewriting) (count : Int64) (start : SourceLine) (body : List SourceLine) (close : SourceLine)
    (copies : List (List SourceLine)) : Prop where
  unrolls : K.Unrolls
  opens : start.OpensLoop count
  closes : close.ClosesLoop
  plain : ∀ l ∈ body, l.Plain K.free
  nonempty : body ≠ []
  positive : 0 < count.toInt
  length : copies.length = count.toInt.toNat
  same : ∀ copy ∈ copies, Forall₂ Same body copy

end Rewriting

/-- The second program is the first one rewritten. -/
inductive Rewritten (K : Rewriting) : List SourceLine → List SourceLine → Prop where
  | nil : Rewritten K [] []
  | cons {l m : SourceLine} {ls ms : List SourceLine} (hline : K.Line l m) (hargs : l.PassesSteady K.free)
    (hrest : Rewritten K ls ms) : Rewritten K (l :: ls) (m :: ms)
  | loop {count : Int64} {start close : SourceLine} {body ls ms : List SourceLine} {copies : List (List SourceLine)}
    (hloop : K.WritesOut count start body close copies) (hrest : Rewritten K ls ms) :
    Rewritten K (start :: (body ++ close :: ls)) (copies.flatten ++ ms)
  | label {label l m : SourceLine} {ls ms : List SourceLine} (hjoins : K.Joins label l m)
    (hargs : l.PassesSteady K.free) (hrest : Rewritten K ls ms) : Rewritten K (label :: l :: ls) (m :: ms)

variable {free : Prop} {K : Rewriting}

namespace SourceLine

/-! What a line is in the structure of blocks. -/

section
variable {f : String → String} (h : m.stmt = l.stmt.map (Stmt.renamed f))
include h

theorem opens_renamed : m.opens = l.opens := by
  unfold opens
  rw [h]
  rcases l.stmt with _ | s
  · rfl
  · cases s with
    | statement s => exact s.opens_renamed
    | _ => rfl

theorem closes_renamed : m.closes = l.closes := by
  unfold closes
  rw [h]
  rcases l.stmt with _ | s
  · rfl
  · cases s with
    | statement s => exact s.closes_renamed
    | _ => rfl

theorem sectionHeader?_renamed : m.sectionHeader? = l.sectionHeader?.map (Statement.renamed f) := by
  unfold sectionHeader?
  rw [h]
  rcases l.stmt with _ | s
  · rfl
  · cases s with
    | statement s => cases s <;> rfl
    | _ => rfl

theorem role_renamed : m.role = l.role.renamed f := by
  unfold role
  rw [h]
  rcases l.stmt with _ | s
  · rfl
  · cases s with
    | statement s => cases s <;> rfl
    | _ => rfl

end

theorem closes_of_bindsLabel {s : Stmt} (hs : l.stmt = some s) (h : s.bindsLabel = true) :
    l.closes = none ∧ l.sectionHeader? = none := by
  unfold closes sectionHeader?
  rw [hs]
  cases s with
  | statement s => cases s <;> first | exact ⟨rfl, rfl⟩ | cases h
  | _ => exact ⟨rfl, rfl⟩

end SourceLine

namespace SourceLine.Same

theorem plain (h : l.Same m) (hl : l.Plain free) : m.Plain free := by
  obtain ⟨s, hs, hplain⟩ := hl.stmt
  exact ⟨h.label.trans hl.label, s, h.stmt.trans hs, hplain⟩

theorem stmt_renamed (h : l.Same m) : m.stmt = l.stmt.map (Stmt.renamed id) := by
  rw [h.stmt, funext Stmt.renamed_id]
  exact Option.map_id'.symm

theorem line (h : l.Same m) (hcase : K.case = id) (hexact : ¬K.exact) (hfilled : K.filled → l.Filled) : K.Line l m where
  pos := ⟨h.file, fun he => absurd he hexact⟩
  label := by rw [h.label, hcase, Option.map_id, id]
  stmt := hcase ▸ h.stmt_renamed
  filled := hfilled

end SourceLine.Same

namespace Rewriting.Joins

variable {label : SourceLine} (h : K.Joins label l m)
include h

theorem stmt_renamed : m.stmt = l.stmt.map (Stmt.renamed K.case) := by
  obtain ⟨s, hs, hs', -⟩ := h.stmt
  rw [hs, hs']
  rfl

theorem closes : l.closes = none ∧ l.sectionHeader? = none := by
  obtain ⟨s, hs, -, hbinds, -⟩ := h.stmt
  exact closes_of_bindsLabel hs hbinds

theorem closes' : m.closes = none ∧ m.sectionHeader? = none := by
  rw [closes_renamed h.stmt_renamed, sectionHeader?_renamed h.stmt_renamed, h.closes.1,
    h.closes.2]
  exact ⟨rfl, rfl⟩

theorem filled : l.Filled := by
  obtain ⟨s, hs, -, -, hparam⟩ := h.stmt
  intro s' hs'
  rw [hs] at hs'
  cases hs'
  exact hparam

end Rewriting.Joins

/-! A line of its own for a label opens and closes nothing. -/

theorem SourceLine.opens_bare (h : l.stmt = none) : l.opens = none ∧ l.closes = none ∧ l.sectionHeader? = none := by
  unfold opens closes sectionHeader?
  rw [h]
  exact ⟨rfl, rfl, rfl⟩

theorem plain_of_copy {copy : List SourceLine} (h : Forall₂ Same body copy)
    (hbody : ∀ l ∈ body, l.Plain free) : ∀ l ∈ copy, l.Plain free := by
  induction h with
  | nil => exact hbody
  | cons hline _ ih =>
    obtain ⟨hl, hrest⟩ := forall_mem_cons.1 hbody
    exact forall_mem_cons.2 ⟨hline.plain hl, ih hrest⟩

theorem plain_of_copies (h : ∀ copy ∈ copies, Forall₂ Same body copy)
    (hbody : ∀ l ∈ body, l.Plain free) : ∀ l ∈ copies.flatten, l.Plain free := by
  intro l hl
  obtain ⟨copy, hcopy, hl⟩ := mem_flatten.1 hl
  exact plain_of_copy (h copy hcopy) hbody l hl

namespace SourceLine.Plain

variable (h : l.Plain free)
include h

theorem emits : (∃ m operands, l.stmt = some (.op m operands)) ∨ ∃ p, l.stmt = some (.pragma p) := by
  obtain ⟨s, hs, hplain⟩ := h.stmt
  rcases hplain.emits with ⟨m, operands, rfl⟩ | ⟨p, rfl, -⟩
  · exact .inl ⟨m, operands, hs⟩
  · exact .inr ⟨p, hs⟩

theorem opens : l.opens = none := by
  rcases h.emits with ⟨m, operands, hs⟩ | ⟨p, hs⟩ <;> rw [SourceLine.opens, hs] <;> rfl

theorem closes : l.closes = none := by
  rcases h.emits with ⟨m, operands, hs⟩ | ⟨p, hs⟩ <;> rw [SourceLine.closes, hs] <;> rfl

theorem sectionHeader? : l.sectionHeader? = none := by
  rcases h.emits with ⟨m, operands, hs⟩ | ⟨p, hs⟩ <;> rw [SourceLine.sectionHeader?, hs]

theorem role : l.role = .single := by
  rcases h.emits with ⟨m, operands, hs⟩ | ⟨p, hs⟩ <;> rw [SourceLine.role, hs]

end SourceLine.Plain

/-! ## Blocks -/

theorem SourceLine.OpensLoop.opens {line : SourceLine} (h : line.OpensLoop count) : line.opens = some .loop := by
  unfold SourceLine.opens
  rw [h.2]
  rfl

theorem SourceLine.ClosesLoop.closes {line : SourceLine} (h : line.ClosesLoop) :
    line.opens = none ∧ line.closes = some .loop := by
  unfold SourceLine.opens SourceLine.closes
  rw [h.2]
  exact ⟨rfl, rfl⟩

theorem uncut_of_plain (h : ∀ l ∈ lines, l.Plain free) : Uncut lines := by
  induction lines with
  | nil => exact .nil
  | cons l lines ih =>
    obtain ⟨hl, hlines⟩ := forall_mem_cons.1 h
    exact .line hl.opens hl.closes hl.sectionHeader? (ih hlines)

theorem Rewriting.WritesOut.uncut {start close : SourceLine}
    (h : K.WritesOut count start body close copies) : Uncut (start :: (body ++ [close])) ∧ Uncut copies.flatten :=
  ⟨.block h.opens.opens h.closes.closes.2 ((uncut_of_plain h.plain).mono fun _ _ => trivial) .nil,
    uncut_of_plain (plain_of_copies h.same h.plain)⟩

def SplitAlike (K : Rewriting) (x y : List SourceLine × SourceLine × List SourceLine) : Prop :=
  Rewritten K x.1 y.1 ∧ K.Line x.2.1 y.2.1 ∧ Rewritten K x.2.2 y.2.2

theorem rel_map {α β γ δ : Type} {R : α → β → Prop} {S : γ → δ → Prop} {f : α → γ} {g : β → δ} {x : Option α}
    {y : Option β} (h : Option.Rel R x y) (hf : ∀ x y, R x y → S (f x) (g y)) : Option.Rel S (x.map f) (y.map g) := by
  cases h with
  | none => exact .none
  | some h => exact .some (hf _ _ h)

theorem splitBlock_open (h : l.closes = none) (block : Block) (inner : List Block) (ls : List SourceLine) :
    splitBlock block inner (l :: ls) = (splitBlock block (l.opens.toList ++ inner) ls).map (inFront [l]) := by
  rw [splitBlock, h]
  cases l.opens <;> rfl

/-- Where a block ends does not depend on how its lines are written. -/
theorem Rewritten.splitBlock (h : Rewritten K ls ms) (block : Block) (inner : List Block) :
    Option.Rel (SplitAlike K) (splitBlock block inner ls) (splitBlock block inner ms) := by
  induction h generalizing inner with
  | nil => exact .none
  | @cons l m ls ms hline hargs hrest ih =>
    have hfurther (inner : List Block) : Option.Rel (SplitAlike K)
        ((SpectrumAsm.splitBlock block inner ls).map fun x => (l :: x.1, x.2))
        ((SpectrumAsm.splitBlock block inner ms).map fun x => (m :: x.1, x.2)) :=
      rel_map (ih inner) fun x y hxy => ⟨.cons hline hargs hxy.1, hxy.2⟩
    unfold SpectrumAsm.splitBlock
    rw [SourceLine.opens_renamed hline.stmt, closes_renamed hline.stmt]
    split
    · exact hfurther _
    split
    · exact hfurther _
    split
    · exact hfurther _
    split
    · exact .some ⟨.nil, hline, hrest⟩
    · exact hfurther _
  | @loop count start close body ls ms copies hloop hrest ih =>
    have hsplit : start :: (body ++ close :: ls) = start :: (body ++ [close]) ++ ls := by simp
    rw [hsplit, splitBlock_bracketed hloop.uncut.1, splitBlock_bracketed hloop.uncut.2]
    refine rel_map (ih inner) fun x y hxy => ⟨?_, hxy.2⟩
    show Rewritten K ((start :: (body ++ [close])) ++ x.1) (copies.flatten ++ y.1)
    rw [cons_append, append_assoc]
    exact .loop hloop hxy.1
  | label hjoins hargs hrest ih =>
    obtain ⟨hopens, hcloses, -⟩ := SourceLine.opens_bare hjoins.bare
    rw [splitBlock_open hcloses, splitBlock_open hjoins.closes.1, splitBlock_open hjoins.closes'.1, hopens,
      SourceLine.opens_renamed hjoins.stmt_renamed, Option.map_map]
    exact rel_map (ih _) fun x y hxy => ⟨.label hjoins hargs hxy.1, hxy.2⟩

/-! ## Choices -/

/-- Sections alike. -/
structure Section.Alike (K : Rewriting) (s s' : Section) : Prop where
  line : K.Line s.line s'.line
  header : s'.header = s.header.renamed K.case
  filled : K.filled → (Stmt.statement s.header).hasParam = false
  body : Rewritten K s.body s'.body

def CutAlike (K : Rewriting) (x y : List SourceLine × List Section) : Prop :=
  Rewritten K x.1 y.1 ∧ Forall₂ (Section.Alike K) x.2 y.2

theorem cutSections_open (h : l.closes = none ∧ l.sectionHeader? = none) (depth : Nat) (ls : List SourceLine) :
    cutSections depth (l :: ls) = (l :: (cutSections (depth + l.opens.toList.length) ls).1,
      (cutSections (depth + l.opens.toList.length) ls).2) := by
  conv_lhs => unfold cutSections
  rw [h.1, h.2]
  cases l.opens <;> rfl

theorem SourceLine.stmt_of_sectionHeader? {s : Statement} (h : l.sectionHeader? = some s) :
    l.stmt = some (.statement s) := by
  unfold sectionHeader? at h
  split at h <;> cases h <;> assumption

/-- Nor do the sections of a choice. -/
theorem Rewritten.cutSections (h : Rewritten K ls ms) (depth : Nat) :
    CutAlike K (cutSections depth ls) (cutSections depth ms) := by
  induction h generalizing depth with
  | nil => exact ⟨.nil, .nil⟩
  | @cons l m ls ms hline hargs hrest ih =>
    have hplain (depth : Nat) : CutAlike K
        (l :: (SpectrumAsm.cutSections depth ls).1, (SpectrumAsm.cutSections depth ls).2)
        (m :: (SpectrumAsm.cutSections depth ms).1, (SpectrumAsm.cutSections depth ms).2) :=
      ⟨.cons hline hargs (ih depth).1, (ih depth).2⟩
    unfold SpectrumAsm.cutSections
    rw [SourceLine.opens_renamed hline.stmt, closes_renamed hline.stmt,
      sectionHeader?_renamed hline.stmt]
    split
    · exact hplain _
    split
    · exact hplain _
    cases hheader : l.sectionHeader? with
    | none => exact hplain _
    | some header =>
      cases depth with
      | succ depth => exact hplain _
      | zero =>
        have hfilled (hK : K.filled) := hline.filled hK _ (stmt_of_sectionHeader? hheader)
        exact ⟨.nil, .cons ⟨hline, rfl, hfilled, (ih 0).1⟩ (ih 0).2⟩
  | @loop count start close body ls ms copies hloop hrest ih =>
    have hsplit : start :: (body ++ close :: ls) = start :: (body ++ [close]) ++ ls := by simp
    rw [hsplit, cutSections_bracketed hloop.uncut.1 fun _ _ hl => hl,
      cutSections_bracketed hloop.uncut.2 fun _ _ hl => hl]
    refine ⟨?_, (ih depth).2⟩
    simpa using Rewritten.loop hloop (ih depth).1
  | label hjoins hargs hrest ih =>
    obtain ⟨hopens, hcut⟩ := SourceLine.opens_bare hjoins.bare
    rw [cutSections_open hcut, cutSections_open hjoins.closes, cutSections_open hjoins.closes', hopens,
      SourceLine.opens_renamed hjoins.stmt_renamed]
    exact ⟨.label hjoins hargs (ih _).1, (ih _).2⟩

/-! ## Parameters -/

theorem allSteady_iff {es : List Expr} : Expr.AllSteady free es ↔ ∀ e ∈ es, e.Steady free := by
  induction es with
  | nil => simp [Expr.AllSteady]
  | cons e es ih => rw [Expr.AllSteady, ih, forall_mem_cons]

theorem steady_replace {p : String → Expr} (hp : free → ∀ name, (p name).Steady free) (f : String → String) {e : Expr}
    (h : e.Steady free) : (e.replace p f).Steady free := by
  induction e using Expr.parts_induction with
  | step e ih => cases e <;> simp_all [Expr.parts, Expr.Steady, Expr.replace, allSteady_iff]

/-- The arguments do not use the number of a pass, as far as that matters. -/
def Bindings.Steady (free : Prop) (b : Bindings) : Prop := free → ∀ o ∈ b.args, o.Steady free

namespace Bindings.Steady

variable {b : Bindings} (hb : b.Steady free)
include hb

theorem get (hfree : free) (name : String) : (b.get name).Steady free := by
  rcases b.get_mem name with h | h
  · rw [h]
    intro e he
    cases he
    trivial
  · exact hb hfree _ h

theorem exprOf (hfree : free) (name : String) : (b.insert (b.exprOf name)).Steady free := by
  have hget := hb.get hfree name
  have hexpr : (b.exprOf name).Steady free := by
    unfold Bindings.exprOf
    generalize b.get name = o at hget
    cases o with
    | expr e | memory e => exact hget e rfl
    | _ => trivial
  unfold Bindings.insert
  split
  · trivial
  · rw [refill_eq_replace]
    exact steady_replace (fun hfree _ => hfree) _ hexpr

theorem substitute {e : Expr} (h : e.Steady free) : (b.substitute e).Steady free := by
  rw [substitute_eq_replace]
  exact steady_replace (fun hfree name => hb.exprOf hfree name) _ h

theorem operand {o : Operand} (h : o.Steady free) : ((b.substituteOperand o).mapExpr b.substitute).Steady free := by
  have hmap {o : Operand} (h : o.Steady free) : (o.mapExpr b.substitute).Steady free := by
    cases o with
    | expr e | memory e =>
      intro e' he
      cases he
      exact hb.substitute (h e rfl)
    | indexed reg displacement =>
      cases displacement with
      | none =>
        intro e he
        cases he
      | some d =>
        intro e he
        cases he
        exact hb.substitute (h d.2 rfl)
    | param name => exact h
    | _ =>
      intro e he
      cases he
  refine hmap ?_
  unfold substituteOperand
  split
  · exact hb.get h _
  · split
    · intro e he; cases he
    · intro e he; cases he
    · intro e he; cases he
    · exact h
  · exact h

theorem stmt {s : Stmt} (h : s.Plain free) : (b.substituteStmt s).Plain free := by
  rcases h.emits with ⟨m, os, rfl⟩ | ⟨p, rfl, hdata⟩
  · have hoperands : ∀ o ∈ (os.map b.substituteOperand).map (Operand.mapExpr b.substitute), o.Steady free := by
      intro o ho
      rw [map_map] at ho
      obtain ⟨o', ho', rfl⟩ := mem_map.1 ho
      exact hb.operand (h.operands o' ho')
    refine ⟨.inl ⟨m, _, rfl⟩, hoperands, fun e he => ?_⟩
    obtain ⟨o, ho, he⟩ := mem_filterMap.1 he
    have hsteady := hoperands o ho
    cases o with
    | param name => cases he
    | _ => exact hsteady e he
  · have hexprs : (p.mapExprs b.substitute).exprs = p.exprs.map b.substitute := by
      cases p <;> cases hdata <;> simp [Pragma.mapExprs, Pragma.exprs]
    have hemits : (p.mapExprs b.substitute).emitsData = p.emitsData := by cases p <;> rfl
    refine ⟨.inr ⟨_, rfl, hemits.trans hdata⟩, fun o ho => (not_mem_nil ho).elim, fun e he => ?_⟩
    have he : e ∈ (p.mapExprs b.substitute).exprs := he
    rw [hexprs] at he
    obtain ⟨e', he', rfl⟩ := mem_map.1 he
    exact hb.substitute (h.exprs e' he')

end Bindings.Steady

/-- A line with the parameters of a macro replaced. -/
def Bindings.line (b : Bindings) (line : SourceLine) : SourceLine :=
  { line with stmt := line.stmt.map b.substituteStmt }

theorem Bindings.substituteLines_eq (b : Bindings) (lines : List SourceLine) :
    b.substituteLines lines = lines.map b.line := rfl

section
variable {b : Bindings}

theorem SourceLine.Same.substitute (h : l.Same m) : (b.line l).Same (b.line m) :=
  ⟨h.file, h.label, congrArg (Option.map b.substituteStmt) h.stmt⟩

theorem SourceLine.Plain.substitute (h : l.Plain free) (hb : b.Steady free) : (b.line l).Plain free := by
  obtain ⟨s, hs, hplain⟩ := h.stmt
  exact ⟨h.label, _, congrArg (Option.map b.substituteStmt) hs, hb.stmt hplain⟩

theorem SourceLine.PassesSteady.substitute (h : l.PassesSteady free) (hb : b.Steady free) :
    (b.line l).PassesSteady free := by
  intro hfree name args hstmt o ho
  obtain ⟨s, hs, hsubst⟩ := Option.map_eq_some_iff.1 hstmt
  cases s with
  | invoke name' args' =>
    cases hsubst
    rw [map_map] at ho
    obtain ⟨o', ho', rfl⟩ := mem_map.1 ho
    exact hb.operand (h hfree _ _ hs o' ho')
  | _ => cases hsubst

theorem Stmt.bindsLabel_substituteStmt (s : Stmt) : (b.substituteStmt s).bindsLabel = s.bindsLabel := by
  cases s with
  | statement s => cases s <;> rfl
  | _ => rfl

section
variable {invoked : String} (hargs : (Stmt.invoke invoked b.args).hasParam = false)
include hargs

theorem Bindings.filled_line (l : SourceLine) : (b.line l).Filled := by
  intro s hs
  obtain ⟨s, -, rfl⟩ := Option.map_eq_some_iff.1 hs
  exact hasParam_substituteStmt hargs s

theorem stmt_substitute (h : m.stmt = l.stmt.map (Stmt.renamed K.case)) :
    ((b.renamed K.case).line m).stmt = (b.line l).stmt.map (Stmt.renamed K.case) := by
  show m.stmt.map (b.renamed K.case).substituteStmt = (l.stmt.map b.substituteStmt).map (Stmt.renamed K.case)
  rw [h, Option.map_map, Option.map_map]
  congr 1
  funext s
  exact substituteStmt_renamed K.upcase_case hargs s

/-- A program that is rewritten is so in the expansions of macros, which have no parameters left. -/
theorem Rewritten.substitute (h : Rewritten K.loose ls ms) (hb : b.Steady K.free) :
    Rewritten K (b.substituteLines ls) ((b.renamed K.case).substituteLines ms) := by
  rw [substituteLines_eq, substituteLines_eq]
  induction h with
  | nil => exact .nil
  | @cons l m ls ms hline hsteady _ ih =>
    exact .cons ⟨hline.pos, hline.label, stmt_substitute hargs hline.stmt, fun _ => b.filled_line hargs l⟩
      (hsteady.substitute hb) ih
  | @loop count start close body ls ms copies hloop hrest ih =>
    obtain ⟨hK, hstart, hclose, hbody, hne, hcount, hlength, hcopies⟩ := hloop
    have hsame : b.renamed K.case = b := by
      rw [show K.case = id from hK.case]
      exact congrArg (Bindings.mk · b.args) (map_id _)
    rw [hsame] at ih ⊢
    rw [map_cons, map_append, map_cons, map_append, map_flatten]
    have hopens : (b.line start).OpensLoop count := ⟨hstart.1, congrArg (Option.map b.substituteStmt) hstart.2⟩
    have hcloses : (b.line close).ClosesLoop := ⟨hclose.1, congrArg (Option.map b.substituteStmt) hclose.2⟩
    refine .loop ⟨⟨hK.quiet, hK.inexact, hK.case⟩, hopens, hcloses, ?_, by simpa using hne, hcount,
      by simpa using hlength, ?_⟩ ih
    · intro l hl
      obtain ⟨l', hl', rfl⟩ := mem_map.1 hl
      exact (hbody l' hl').substitute hb
    · intro copy hcopy
      obtain ⟨copy', hcopy', rfl⟩ := mem_map.1 hcopy
      rw [forall₂_map_left_iff, forall₂_map_right_iff]
      exact (hcopies copy' hcopy').imp fun _ _ h => h.substitute
  | @label label l m ls ms hjoins hsteady _ ih =>
    have hbare (b : Bindings) : b.line label = label := by
      unfold line
      rw [hjoins.bare]
      obtain ⟨pos, name, stmt, comment⟩ := label
      obtain rfl : stmt = none := hjoins.bare
      rfl
    have hstmt := stmt_substitute (K := K) hargs hjoins.stmt_renamed
    obtain ⟨s, hs, -, hbinds, -⟩ := hjoins.stmt
    have hs' : (b.line l).stmt = some (b.substituteStmt s) := congrArg (Option.map b.substituteStmt) hs
    rw [map_cons, map_cons, map_cons, hbare]
    refine .label ⟨hjoins.hung, hjoins.inexact, hjoins.bare, hjoins.name, hjoins.unlabelled, hjoins.file,
      ⟨_, hs', ?_, s.bindsLabel_substituteStmt.trans hbinds, b.filled_line hargs l _ hs'⟩, hjoins.closed⟩
      (hsteady.substitute hb) ih
    rw [hstmt, hs']
    rfl

end

end

/-! ## Definitions -/

section
variable (h : Rewritten K ls ms)
include h

theorem Rewritten.loosen : Rewritten K.loose ls ms := by
  induction h with
  | nil => exact .nil
  | cons hline hargs _ ih => exact .cons ⟨hline.pos, hline.label, hline.stmt, False.elim⟩ hargs ih
  | loop hloop _ ih =>
    have hK := hloop.unrolls
    exact .loop { hloop with unrolls := ⟨hK.quiet, hK.inexact, hK.case⟩ } ih
  | label hjoins hargs _ ih => exact .label { hjoins with } hargs ih

/-- What holds of all lines of a program holds of all lines of the other, if it depends on what the
lines say and holds of the lines around a loop and of those that say nothing. -/
theorem Rewritten.forall_iff {P Q : SourceLine → Prop}
    (hsame : ∀ l m : SourceLine, m.stmt = l.stmt.map (Stmt.renamed K.case) → (P l ↔ Q m))
    (hbare : ∀ l : SourceLine, l.stmt = none → P l) (hloop : ∀ count l, l.OpensLoop count → P l)
    (hend : ∀ l : SourceLine, l.ClosesLoop → P l) : (∀ l ∈ ls, P l) ↔ ∀ m ∈ ms, Q m := by
  induction h with
  | nil => simp
  | cons hline _ _ ih => rw [forall_mem_cons, forall_mem_cons, ih, hsame _ _ hline.stmt]
  | @loop count start close body ls ms copies hwritten hrest ih =>
    obtain ⟨hK, hstart, hclose, -, hne, hcount, hlength, hcopies⟩ := hwritten
    have hlines {body copy : List SourceLine} (hcopy : Forall₂ Same body copy) :
        (∀ l ∈ body, P l) ↔ ∀ m ∈ copy, Q m := by
      induction hcopy with
      | nil => simp
      | cons hline _ ih =>
        rw [forall_mem_cons, forall_mem_cons, ih, hsame _ _ (hK.case ▸ hline.stmt_renamed)]
    have hbodies : (∀ l ∈ body, P l) ↔ ∀ m ∈ copies.flatten, Q m := by
      constructor
      · intro hP m hm
        obtain ⟨copy, hmem, hm⟩ := mem_flatten.1 hm
        exact (hlines (hcopies copy hmem)).1 hP m hm
      · intro hP
        obtain ⟨copy, hmem⟩ := exists_mem_of_length_pos (l := copies) (by omega)
        exact (hlines (hcopies copy hmem)).2 fun m hm => hP m (mem_flatten.2 ⟨copy, hmem, hm⟩)
    rw [forall_mem_cons, forall_mem_append, forall_mem_cons, forall_mem_append, ih, hbodies]
    exact ⟨fun hP => ⟨hP.2.1, hP.2.2.2⟩, fun hP => ⟨hloop count start hstart, hP.1, hend close hclose, hP.2⟩⟩
  | label hjoins _ _ ih =>
    rw [forall_mem_cons, forall_mem_cons, forall_mem_cons, ih, hsame _ _ hjoins.stmt_renamed]
    exact and_iff_right (hbare _ hjoins.bare)

theorem Rewritten.beginsMacro : ms.any (·.beginsMacro) = ls.any (·.beginsMacro) := by
  rw [Bool.eq_iff_iff, ← not_iff_not]
  simp only [Bool.not_eq_true, any_eq_false]
  refine (h.forall_iff (fun l m hs => ?_) (fun l hl => ?_) (fun count l hl => ?_) fun l hl => ?_).symm
  · unfold SourceLine.beginsMacro
    rw [opens_renamed hs]
  · unfold SourceLine.beginsMacro
    rw [(opens_bare hl).1]
    decide
  · unfold SourceLine.beginsMacro
    rw [hl.opens]
    decide
  · unfold SourceLine.beginsMacro
    rw [hl.closes.1]
    decide

omit h in
theorem mentioned_renamed (params : List String) (s : Stmt) :
    ((s.renamed K.case).mentions.filter fun p => !(params.map K.case).any (sameName · p)).length =
      (s.mentions.filter fun p => !params.any (sameName · p)).length := by
  have hlength (names : List String) : (names.filter fun p => !params.any (sameName · p)).length =
      ((names.map upcase).filter fun p => !params.any (sameName · p)).length := by
    rw [filter_map, length_map]
    simp [Function.comp_def, sameName_upcase_right]
  simp only [any_map, Function.comp_def, sameName_renamed K.upcase_case]
  rw [hlength, s.mentions_renamed K.upcase_case, ← hlength]

theorem Rewritten.unknownParams (params : List String) :
    unknownParams params ls = [] ↔ unknownParams (params.map K.case) ms = [] := by
  rw [unknownParams_eq_nil, unknownParams_eq_nil]
  refine h.forall_iff (fun l m hs => ?_) (fun l hl s hs => ?_) (fun count l hl s hs p hp => ?_) fun l hl s hs p hp => ?_
  · rw [hs]
    cases l.stmt with
    | none => simp
    | some s =>
      have hlength := mentioned_renamed (K := K) params s
      have hnil (names params : List String) : (∀ p ∈ names, params.any (sameName · p) = true) ↔
          (names.filter fun p => !params.any (sameName · p)).length = 0 := by simp
      simp only [Option.map_some, Option.some.injEq, forall_eq', hnil, hlength]
  · rw [hl] at hs
    cases hs
  · rw [hl.2] at hs
    cases hs
    cases hp
  · rw [hl.2] at hs
    cases hs
    cases hp

theorem Rewritten.unknownParams_reported (hloud : ¬K.Quiet) (params : List String) :
    List.Forall₂ (fun x y => K.exact → y.2 = x.2) (SpectrumAsm.unknownParams params ls)
      (SpectrumAsm.unknownParams (params.map K.case) ms) := by
  have hline {l m : SourceLine} (hs : m.stmt = l.stmt.map (Stmt.renamed K.case)) (hpos : K.exact → m.pos = l.pos) :
      List.Forall₂ (fun x y => K.exact → y.2 = x.2) (SpectrumAsm.unknownParams params [l])
        (SpectrumAsm.unknownParams (params.map K.case) [m]) := by
    unfold SpectrumAsm.unknownParams
    rw [flatMap_singleton, flatMap_singleton, hs]
    cases l.stmt with
    | none => exact .nil
    | some s =>
      refine forall₂_iff_get.2 ⟨by simpa using (mentioned_renamed (K := K) params s).symm, fun i _ _ hexact => ?_⟩
      simpa using hpos hexact
  have hcons (params : List String) (l : SourceLine) (ls : List SourceLine) :
      SpectrumAsm.unknownParams params (l :: ls) =
        SpectrumAsm.unknownParams params [l] ++ SpectrumAsm.unknownParams params ls := by
    simp [SpectrumAsm.unknownParams]
  induction h with
  | nil => exact .nil
  | cons hsame _ _ ih =>
    rw [hcons, hcons (params.map K.case)]
    exact rel_append (hline hsame.stmt hsame.pos.2) ih
  | loop hloop => exact absurd hloop.unrolls.quiet hloud
  | @label label l m ls ms hjoins _ _ ih =>
    have hbare : SpectrumAsm.unknownParams params [label] = [] := by
      simp [SpectrumAsm.unknownParams, hjoins.bare]
    rw [hcons, hbare, nil_append, hcons, hcons (params.map K.case)]
    exact rel_append (hline hjoins.stmt_renamed fun he => absurd he hjoins.inexact) ih

end

/-- Lines of structures, in which there are no loops. -/
inductive Bodies (K : Rewriting) : List SourceLine → List SourceLine → Prop where
  | nil : Bodies K [] []
  | cons {l m : SourceLine} {ls ms : List SourceLine} (hline : K.Line l m) (hrest : Bodies K ls ms) :
    Bodies K (l :: ls) (m :: ms)
  | label {label l m : SourceLine} {ls ms : List SourceLine} (hjoins : K.Joins label l m) (hrest : Bodies K ls ms) :
    Bodies K (label :: l :: ls) (m :: ms)

theorem Rewritten.bodies (h : Rewritten K ls ms) (hfits : K.Quiet → ∀ l ∈ ls, fitsStruct l = true) :
    Bodies K ls ms := by
  induction h with
  | nil => exact .nil
  | cons hline _ _ ih => exact .cons hline (ih fun hK l hl => hfits hK l (mem_cons_of_mem _ hl))
  | loop hloop _ _ =>
    have := hfits hloop.unrolls.quiet _ mem_cons_self
    unfold fitsStruct at this
    rw [hloop.opens.2] at this
    cases this
  | label hjoins _ _ ih =>
    exact .label hjoins (ih fun hK l hl => hfits hK l (mem_cons_of_mem _ (mem_cons_of_mem _ hl)))

end SpectrumAsm
