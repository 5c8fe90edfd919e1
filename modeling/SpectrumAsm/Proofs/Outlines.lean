/-
Conditional sections as a tree.

A file is read with a stack of the sections that are open. If these are properly nested, its lines are those
of a tree (`Outline`), and what is taken from it can be said without a stack (`Outline.read`): of each
conditional the branch that its test selects, under the names defined by then.
-/
import SpectrumAsm.Proofs.Reading

namespace SpectrumAsm

open SpectrumAsm.Cpu List SourceLine Conditional SourceTree Fault

variable {o : Outline} {lowers : List Lower} {ls : List SourceLine} {test : Test} {model : Model}
  {defines : List String} {l : SourceLine} {sections : List Conditional} {fault : Fault}

/-! ## Lines in the shape of a tree -/

/-- A directive that opens, divides or closes a conditional. -/
def Directive.isFrame : Directive → Bool
  | .define _ | .undef _ | .includeFile _ => false
  | _ => true

/-- A line that is no part of the frame of a conditional. -/
structure PlainLine where
  line : SourceLine
  plain : ∀ d, line.stmt = some (.directive d) → d.isFrame = false

/-- The line that opens a conditional. -/
structure OpeningLine where
  line : SourceLine
  test : Test
  opens : line.stmt = some (.directive test.directive)

/-- The line between the branches of a conditional. -/
structure DividingLine where
  line : SourceLine
  divides : line.stmt = some (.directive .otherwise)

/-- The line that closes a conditional. -/
structure ClosingLine where
  line : SourceLine
  closes : line.stmt = some (.directive .endIf)

/-- Lines with properly nested conditionals, each with one branch or two. -/
inductive Outline where
  | done
  | plain (line : PlainLine) (rest : Outline)
  | single (opening : OpeningLine) (body : Outline) (closing : ClosingLine) (rest : Outline)
  | double (opening : OpeningLine) (first : Outline) (dividing : DividingLine) (second : Outline)
    (closing : ClosingLine) (rest : Outline)

def Outline.lines : Outline → List SourceLine
  | done => []
  | plain line rest => line.line :: rest.lines
  | single opening body closing rest => opening.line :: body.lines ++ closing.line :: rest.lines
  | double opening first dividing second closing rest =>
    opening.line :: first.lines ++ dividing.line :: second.lines ++ closing.line :: rest.lines

/-- What a line is to the conditionals around it. -/
inductive ConditionalPart (line : SourceLine)
  | plain (h : ∀ d, line.stmt = some (.directive d) → d.isFrame = false)
  | opening (test : Test) (h : line.stmt = some (.directive test.directive))
  | dividing (h : line.stmt = some (.directive .otherwise))
  | closing (h : line.stmt = some (.directive .endIf))

/-- The part a line has in conditionals. -/
def SourceLine.conditionalPart (line : SourceLine) : ConditionalPart line :=
  match h : line.stmt with
  | some (.directive (.ifDef name)) => .opening (.defined name) h
  | some (.directive (.ifNotDef name)) => .opening (.undefined name) h
  | some (.directive (.ifTrue e)) => .opening (.holds e) h
  | some (.directive (.ifModel name)) => .opening (.model name) h
  | some (.directive (.ifNotModel name)) => .opening (.otherModel name) h
  | some (.directive .otherwise) => .dividing h
  | some (.directive .endIf) => .closing h
  | some (.directive (.define _)) | some (.directive (.undef _)) | some (.directive (.includeFile _)) =>
    .plain fun d hd => by cases h.symm.trans hd; rfl
  | none | some (.op _ _) | some (.pragma _) | some (.statement _) | some (.invoke _ _) | some (.field _ _) =>
    .plain fun d hd => by cases h.symm.trans hd

def SourceLine.test? (line : SourceLine) : Option Test := line.directive?.bind Directive.test?

theorem OpeningLine.test?_line (o : OpeningLine) : o.line.test? = some o.test := by
  simp only [test?, directive?, o.opens, Option.bind_some]
  cases o.test <;> rfl

theorem PlainLine.test?_line (l : PlainLine) : l.line.test? = none := by
  unfold test? directive?
  split
  · next d hd =>
    have hplain := l.plain d hd
    cases d <;> first | rfl | cases hplain
  · rfl

theorem DividingLine.test?_line (d : DividingLine) : d.line.test? = none := by
  simp only [test?, directive?, d.divides]
  rfl

theorem ClosingLine.test?_line (l : ClosingLine) : l.line.test? = none := by
  simp only [test?, directive?, l.closes]
  rfl

/-- The places among lines where a conditional asks for a model that does not exist. -/
def unknownModels (lines : List SourceLine) : List Position :=
  (lines.filter fun line => line.test?.any Test.namesUnknownModel).map pos

/-! ## Reading a tree -/

/-- Lines passed over, of which only unknown models are reported. -/
def SourceTree.passOver (lines : List SourceLine) (t : SourceTree) : SourceTree :=
  (unknownModels lines).foldl (fun t pos => t.report .ifModValue pos) t

/-- What has been taken from a file: the lines that were kept, the files that were included, and the
program so far. -/
structure Excerpt where
  kept : List SourceLine := []
  included : List String := []
  tree : SourceTree

namespace Excerpt

def report (x : Excerpt) (fault : Fault) (pos : Position) : Excerpt := { x with tree := x.tree.report fault pos }

/-- A directive obeyed that is no part of a conditional. -/
def obey (r : FileReader) (pos : Position) (d : Directive) (x : Excerpt) : Excerpt :=
  match d with
  | .define name => { x with tree := x.tree.define name }
  | .undef name => { x with tree := x.tree.undefine name }
  | .includeFile path =>
    match findInclude r.setup r.dir r.chain x.included path with
    | (included, .ok (full, text)) =>
      let (lines, tree) := r.readFile (full :: r.chain) full text x.tree
      { included, kept := x.kept ++ lines, tree }
    | (included, .error fault) => { x with included, tree := x.tree.report fault pos }
  | _ => x

/-- A line that counts: a directive is obeyed, any other line is kept. -/
def take (r : FileReader) (line : SourceLine) (x : Excerpt) : Excerpt :=
  match line.stmt with
  | some (.directive d) => x.obey r line.pos d
  | _ => { x with kept := x.kept ++ [line] }

def passOver (lines : List SourceLine) (x : Excerpt) : Excerpt := { x with tree := x.tree.passOver lines }

/-- The test of a conditional that counts, reported if it is at fault. -/
def ask (r : FileReader) (opening : OpeningLine) (x : Excerpt) : Excerpt :=
  match opening.test.outcome r.setup.model x.tree.defines with
  | .ok _ => x
  | .error fault => x.report fault opening.line.pos

end Excerpt

/-- What is taken from lines that count. -/
def Outline.read (r : FileReader) : Outline → Excerpt → Excerpt
  | done, x => x
  | plain line rest, x => rest.read r (x.take r line.line)
  | single opening body _ rest, x =>
    let asked := x.ask r opening
    if opening.test.selects r.setup.model x.tree.defines then rest.read r (body.read r asked)
    else rest.read r (asked.passOver body.lines)
  | double opening first _ second _ rest, x =>
    let asked := x.ask r opening
    if opening.test.selects r.setup.model x.tree.defines then
      rest.read r ((first.read r asked).passOver second.lines)
    else rest.read r (second.read r (asked.passOver first.lines))

/-! ## Finding the tree -/

/-- The lower part of a conditional: its second branch, if it has one, and what comes after it. -/
structure Outline.Lower where
  second : Option (DividingLine × Outline) := none
  closing : ClosingLine
  rest : Outline

namespace Outline

def Lower.lines (l : Lower) : List SourceLine :=
  (match l.second with
  | some (dividing, second) => dividing.line :: second.lines
  | none => []) ++ l.closing.line :: l.rest.lines

/-- An outline inside the lower parts of the conditionals around it, with one more line above it. -/
def prepend? (line : SourceLine) : Outline × List Lower → Option (Outline × List Lower)
  | (o, lowers) =>
    match line.conditionalPart, lowers with
    | .plain h, lowers => some (.plain ⟨line, h⟩ o, lowers)
    | .closing h, lowers => some (.done, { closing := ⟨line, h⟩, rest := o } :: lowers)
    | .dividing h, { second := none, closing, rest } :: lowers =>
      some (.done, { second := some (⟨line, h⟩, o), closing, rest } :: lowers)
    | .opening test h, { second := none, closing, rest } :: lowers =>
      some (.single ⟨line, test, h⟩ o closing rest, lowers)
    | .opening test h, { second := some (dividing, second), closing, rest } :: lowers =>
      some (.double ⟨line, test, h⟩ o dividing second closing rest, lowers)
    | _, _ => none

/-- The outline of lines, if their conditionals are properly nested. -/
def ofLines? (lines : List SourceLine) : Option Outline :=
  match lines.foldrM prepend? (done, []) with
  | some (o, []) => some o
  | _ => none

theorem foldrM_prepend?_lines (h : ls.foldrM prepend? (done, []) = some (o, lowers)) :
    o.lines ++ lowers.flatMap Lower.lines = ls := by
  induction ls generalizing o lowers with
  | nil =>
    cases h
    rfl
  | cons line ls ih =>
    rw [foldrM_cons] at h
    obtain ⟨⟨below, under⟩, hbelow, hline⟩ := Option.bind_eq_some_iff.1 h
    rw [← ih hbelow]
    unfold prepend? at hline
    simp only at hline
    split at hline <;> cases hline <;> simp [lines, Lower.lines]

theorem lines_of_ofLines? (h : ofLines? ls = some o) : o.lines = ls := by
  unfold ofLines? at h
  split at h
  · cases h
    rename_i hfold
    simpa using foldrM_prepend?_lines hfold
  · cases h

end Outline

/-! ## Lines passed over -/

theorem Test.outcome_of_namesUnknownModel (h : test.namesUnknownModel = true) :
    test.outcome model defines = .error .ifModValue := by
  cases test with
  | defined | undefined | holds => cases h
  | model name | otherModel name =>
    cases hp : Model.parse name with
    | ok m => simp [Test.namesUnknownModel, hp] at h
    | error e => simp [Test.outcome, evalModel, hp]

namespace Excerpt

variable (x : Excerpt)

theorem passOver_append (ls ms : List SourceLine) : x.passOver (ls ++ ms) = (x.passOver ls).passOver ms := by
  simp [passOver, SourceTree.passOver, unknownModels]

theorem passOver_cons (l : SourceLine) (ls : List SourceLine) :
    x.passOver (l :: ls) = (x.passOver [l]).passOver ls := x.passOver_append [l] ls

theorem passOver_opening (o : OpeningLine) : x.passOver [o.line] =
    if o.test.namesUnknownModel then x.report .ifModValue o.line.pos else x := by
  cases h : o.test.namesUnknownModel <;>
    simp [passOver, SourceTree.passOver, report, unknownModels, o.test?_line, h]

theorem passOver_of_test? (h : l.test? = none) (ls : List SourceLine) : x.passOver (l :: ls) = x.passOver ls := by
  simp [passOver, SourceTree.passOver, unknownModels, h]

end Excerpt

/-! ## The stack of open sections -/

/-- The number of the last of some lines, those before it having ended with `last`. -/
def lastLine (last : Nat) (lines : List SourceLine) : Nat := lines.foldl (fun _ line => line.pos.line) last

@[simp] theorem lastLine_cons (last : Nat) (line : SourceLine) (lines : List SourceLine) :
    lastLine last (line :: lines) = lastLine line.pos.line lines := rfl

@[simp] theorem lastLine_append (last : Nat) (ls ms : List SourceLine) :
    lastLine last (ls ++ ms) = lastLine (lastLine last ls) ms := foldl_append

/-- The stack in the second branch of a conditional whose test came to `selected`. -/
def Conditional.enterSecond (stack : List Conditional) (selected : Bool) : List Conditional :=
  { outer := isActive stack, selected := !selected, inElse := true } :: stack

theorem Conditional.isActive_enter (stack : List Conditional) (selected : Bool) :
    isActive (enter stack selected) = (isActive stack && selected) := rfl

theorem Conditional.isActive_enterSecond (stack : List Conditional) (selected : Bool) :
    isActive (enterSecond stack selected) = (isActive stack && !selected) := rfl

/-- The state in which an excerpt has been made, inside open sections. -/
def Excerpt.state (x : Excerpt) (sections : List Conditional) (last : Nat) : ReadState :=
  ({ kept := x.kept.reverse, sections, included := x.included, last }, x.tree)

namespace FileReader

variable (r : FileReader) (x : Excerpt) (last : Nat)

theorem line_plain_idle (h : isActive sections = false) (l : PlainLine) :
    r.line (x.state sections last) l.line = x.state sections l.line.pos.line := by
  obtain ⟨⟨pos, label, stmt, comment⟩, hplain⟩ := l
  unfold line readLine
  rcases stmt with _ | s
  · simp [Excerpt.state, h]
  cases s with
  | directive d =>
    unfold obey
    cases d with
    | define name | undef name | includeFile path => simp [Excerpt.state, h]
    | _ => cases hplain _ rfl
  | _ => simp [Excerpt.state, h]

theorem line_directive (y : ReadState) {d : Directive} (h : l.stmt = some (.directive d)) :
    r.line y l = obey r.setup r.readFile r.dir r.chain l.pos d { y.1 with last := l.pos.line } y.2 := by
  simp [line, readLine, h]

theorem line_opening_idle (h : isActive sections = false) (o : OpeningLine) :
    ∃ selected, r.line (x.state sections last) o.line =
      (x.passOver [o.line]).state (enter sections selected) o.line.pos.line := by
  refine ⟨o.test.selects r.setup.model x.tree.defines, ?_⟩
  rw [r.line_directive _ o.opens, obey_test, x.passOver_opening]
  cases hu : o.test.namesUnknownModel with
  | false =>
    simp only [Excerpt.state, h, Bool.or_self, Bool.false_eq_true, if_false]
    cases o.test.outcome r.setup.model x.tree.defines <;> rfl
  | true =>
    simp only [Excerpt.state, Bool.or_true, if_true, Test.outcome_of_namesUnknownModel hu]
    rfl

theorem line_dividing (selected : Bool) (d : DividingLine) :
    r.line (x.state (enter sections selected) last) d.line =
      x.state (enterSecond sections selected) d.line.pos.line := by
  rw [r.line_directive _ d.divides]
  rfl

theorem line_closing (c : Conditional) (l : ClosingLine) :
    r.line (x.state (c :: sections) last) l.line = x.state sections l.line.pos.line := by
  rw [r.line_directive _ l.closes]
  rfl

theorem lines_idle (o : Outline) (x : Excerpt) (last : Nat) (h : isActive sections = false) :
    r.lines o.lines (x.state sections last) = (x.passOver o.lines).state sections (lastLine last o.lines) := by
  induction o generalizing x sections last with
  | done => rfl
  | plain line rest ih =>
    simp only [Outline.lines, lines_cons, lastLine_cons, x.passOver_of_test? line.test?_line]
    rw [r.line_plain_idle x last h, ih _ _ h]
  | single opening body closing rest ihb ihr =>
    obtain ⟨selected, hopen⟩ := r.line_opening_idle x last h opening
    have hbody := (isActive_enter sections selected).trans (by rw [h, Bool.false_and])
    simp only [Outline.lines, cons_append, lines_cons, lines_append, lastLine_cons, lastLine_append]
    rw [x.passOver_cons, Excerpt.passOver_append, Excerpt.passOver_of_test? _ closing.test?_line, hopen,
      ihb _ _ hbody, enter, line_closing, ihr _ _ h]
  | double opening first dividing second closing rest ihf ihs ihr =>
    obtain ⟨selected, hopen⟩ := r.line_opening_idle x last h opening
    have hfirst := (isActive_enter sections selected).trans (by rw [h, Bool.false_and])
    have hsecond := (isActive_enterSecond sections selected).trans (by rw [h, Bool.false_and])
    simp only [Outline.lines, cons_append, lines_cons, lines_append, lastLine_cons, lastLine_append]
    rw [x.passOver_cons, Excerpt.passOver_append, Excerpt.passOver_append,
      Excerpt.passOver_of_test? _ dividing.test?_line, Excerpt.passOver_of_test? _ closing.test?_line, hopen,
      ihf _ _ hfirst, line_dividing, ihs _ _ hsecond, enterSecond, line_closing, ihr _ _ h]

end FileReader

/-! ## What becomes of the program -/

/-- How a file may change a program: names come and go, other files are read, and faults of the file
itself are reported, none of them about an `#else`, an `#endif` or the lack of one. -/
inductive FileReader.Amends (r : FileReader) (t : SourceTree) : SourceTree → Prop
  | start : Amends r t t
  | define {u : SourceTree} (name : String) (h : Amends r t u) : Amends r t (u.define name)
  | undefine {u : SourceTree} (name : String) (h : Amends r t u) : Amends r t (u.undefine name)
  | include {u : SourceTree} (full text : String) (h : Amends r t u) :
    Amends r t (r.readFile (full :: r.chain) full text u).2
  | report {u : SourceTree} {fault : Fault} (pos : Position) (h : Amends r t u)
    (hcode : fault.code ∉ ["Z0060", "Z0061", "Z0062"]) : Amends r t (u.report fault pos)

theorem SourceTree.code_of_evalCondition {t : SourceTree} {e : Expr}
    (h : t.evalCondition e = .error fault) : fault.code ∉ ["Z0060", "Z0061", "Z0062"] := by
  unfold evalCondition at h
  split at h
  · cases h
  · cases h
  · cases h
    rename_i f _
    cases f <;> simp [ofExpr, code, described]

theorem Test.code_of_outcome (h : test.outcome model defines = .error fault) :
    fault.code ∉ ["Z0060", "Z0061", "Z0062"] := by
  cases test with
  | defined | undefined => cases h
  | holds e => exact code_of_evalCondition h
  | model name | otherModel name =>
    cases hp : Model.parse name with
    | ok m => simp [outcome, evalModel, hp] at h
    | error e =>
      simp only [outcome, evalModel, hp, Except.error.injEq] at h
      subst h
      decide

theorem SourceTree.code_of_findInclude {setup : SourceSetup} {dir : Option String}
    {chain included included' : List String} {path : String}
    (h : findInclude setup dir chain included path = (included', .error fault)) :
    fault.code ∉ ["Z0060", "Z0061", "Z0062"] := by
  unfold findInclude at h
  split at h
  · cases h
    simp [code, described]
  split at h
  · cases h
    simp [code, described]
  split at h
  · cases h
    simp [code, described]
  simp only [Prod.mk.injEq] at h
  obtain ⟨-, h⟩ := h
  split at h <;> cases h
  simp [code, described]

section
variable {r : FileReader} {t : SourceTree} {x : Excerpt}

theorem FileReader.Amends.take (h : r.Amends t x.tree) (l : SourceLine) : r.Amends t (x.take r l).tree := by
  unfold Excerpt.take
  split
  case h_2 => exact h
  case h_1 d hd =>
    unfold Excerpt.obey
    split
    · exact h.define _
    · exact h.undefine _
    · split
      · exact h.include _ _
      · exact h.report _ (code_of_findInclude ‹_›)
    · exact h

theorem FileReader.Amends.passOver {u : SourceTree} (h : r.Amends t u) (ls : List SourceLine) :
    r.Amends t (u.passOver ls) := by
  unfold SourceTree.passOver
  induction unknownModels ls generalizing u with
  | nil => exact h
  | cons pos ps ih => exact ih (h.report pos (by decide))

theorem FileReader.Amends.ask (h : r.Amends t x.tree) (o : OpeningLine) : r.Amends t (x.ask r o).tree := by
  unfold Excerpt.ask
  split
  · exact h
  · exact h.report _ (Test.code_of_outcome ‹_›)

end

end SpectrumAsm
