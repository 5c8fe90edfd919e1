/-
Two programs read side by side.

Texts, lines and programs of one run stand for those of another (`ReadPairing`). If their directives come to
the same, and programs still stand for each other after whatever is done to them (`ParallelReading`), then
equally many lines are kept in both runs, one for the other.
-/
import Mathlib.Data.List.Forall2
import Mathlib.Data.Option.Basic
import SpectrumAsm.Proofs.Reading

namespace SpectrumAsm

open Text SourceLine SourceTree

variable {t u : SourceTree}

/-- Directives that come to the same in every program. -/
inductive Directive.Alike : Directive → Directive → Prop where
  | define {x y : String} (h : upcase y = upcase x) : Alike (.define x) (.define y)
  | undef {x y : String} (h : upcase y = upcase x) : Alike (.undef x) (.undef y)
  | test (x y : Test) (h : ∀ model defines, y.outcome model defines = x.outcome model defines)
    (hunknown : y.namesUnknownModel = x.namesUnknownModel) : Alike x.directive y.directive
  | otherwise : Alike .otherwise .otherwise
  | endIf : Alike .endIf .endIf
  | includeFile (path : String) : Alike (.includeFile path) (.includeFile path)

theorem Directive.Alike.refl (d : Directive) : d.Alike d := by
  have htest (x : Test) : x.directive.Alike x.directive := .test x x (fun _ _ => rfl) rfl
  cases d with
  | define => exact .define rfl
  | undef => exact .undef rfl
  | ifDef name => exact htest (.defined name)
  | ifNotDef name => exact htest (.undefined name)
  | ifTrue e => exact htest (.holds e)
  | ifModel name => exact htest (.model name)
  | ifNotModel name => exact htest (.otherModel name)
  | otherwise => exact .otherwise
  | endIf => exact .endIf
  | includeFile path => exact .includeFile path

/-- What stands for each other while two programs are read. -/
structure ReadPairing where
  faults : Fault → Fault → Prop
  texts : String → String → Prop
  lines : SourceLine → SourceLine → Prop
  trees : SourceTree → SourceTree → Prop

namespace ReadPairing

/-- Two runs that have got equally far in a file. -/
structure Alike (R : ReadPairing) (x y : ReadState) : Prop where
  kept : List.Forall₂ R.lines x.1.kept y.1.kept
  sections : y.1.sections = x.1.sections
  included : y.1.included = x.1.included
  last : y.1.last = x.1.last
  tree : R.trees x.2 y.2

/-- A reader of files that gives lines and programs that stand for each other. -/
def Reads (R : ReadPairing) (readFile : ReadFile) : Prop :=
  ∀ (chain : List String) (name text : String) {t u : SourceTree}, R.trees t u →
    List.Forall₂ R.lines (readFile chain name text t).1 (readFile chain name text u).1 ∧
      R.trees (readFile chain name text t).2 (readFile chain name text u).2

end ReadPairing

/-- What stands for each other is read alike. -/
structure ParallelReading (R : ReadPairing) : Prop where
  fault (fault : Fault) : R.faults fault fault
  text (text : String) : R.texts text text
  lines {text text' : String} (h : R.texts text text') (file : Nat) :
    List.Forall₂ R.lines (ofSource file text).1 (ofSource file text').1
  unread {text text' : String} (h : R.texts text text') (file : Nat) :
    List.Forall₂ (fun x y => y.1 = x.1 ∧ R.faults x.2 y.2) (ofSource file text).2
      (ofSource file text').2
  pos {l m : SourceLine} (h : R.lines l m) : m.pos = l.pos
  directive {l m : SourceLine} (h : R.lines l m) : Option.Rel Directive.Alike l.directive? m.directive?
  defines {t u : SourceTree} (h : R.trees t u) : u.defines = t.defines
  names {t u : SourceTree} (h : R.trees t u) : u.names = t.names
  setDefines {t u : SourceTree} (h : R.trees t u) (defines : List String) :
    R.trees { t with defines } { u with defines }
  report {t u : SourceTree} (h : R.trees t u) {f g : Fault} (hfault : R.faults f g) (pos : Position) :
    R.trees (t.report f pos) (u.report g pos)
  openFile {t u : SourceTree} (h : R.trees t u) (name : String) (dir : Option String) {text text' : String}
    (htext : R.texts text text') : R.trees (t.openFile name dir text).2 (u.openFile name dir text').2

namespace ParallelReading

variable {R : ReadPairing} (hR : ParallelReading R)
include hR

theorem define (h : R.trees t u) {x y : String} (hxy : upcase y = upcase x) : R.trees (t.define x) (u.define y) := by
  unfold SourceTree.define isDefined
  rw [hxy, hR.defines h]
  split
  · exact h
  · exact hR.setDefines h _

theorem undefine (h : R.trees t u) {x y : String} (hxy : upcase y = upcase x) :
    R.trees (t.undefine x) (u.undefine y) := by
  unfold SourceTree.undefine
  rw [hxy, hR.defines h]
  exact hR.setDefines h _

section
variable {r : FileReader} (hreader : R.Reads r.readFile)
include hreader

/-- Directives that are alike are obeyed alike. -/
theorem obey (pos : Position) {d d' : Directive} (hd : d.Alike d') {p q : FileProgress} (h : R.Alike (p, t) (q, u)) :
    R.Alike (SourceTree.obey r.setup r.readFile r.dir r.chain pos d p t)
      (SourceTree.obey r.setup r.readFile r.dir r.chain pos d' q u) := by
  have htree : R.trees t u := h.tree
  have hsections : q.sections = p.sections := h.sections
  have hincluded : q.included = p.included := h.included
  cases hd with
  | define hname =>
    dsimp only [SourceTree.obey]
    rw [hsections]
    split
    · exact { h with tree := hR.define htree hname }
    · exact h
  | undef hname =>
    dsimp only [SourceTree.obey]
    rw [hsections]
    split
    · exact { h with tree := hR.undefine htree hname }
    · exact h
  | test x y houtcome hunknown =>
    have hselects : y.selects r.setup.model t.defines = x.selects r.setup.model t.defines := by
      unfold Test.selects
      rw [houtcome]
    rw [r.obey_test, r.obey_test, hR.defines htree, hsections, hselects, houtcome, hunknown]
    refine { h with sections := rfl, tree := ?_ }
    split
    · exact htree
    split
    · exact hR.report htree (hR.fault _) pos
    · exact htree
  | otherwise | endIf =>
    dsimp only [SourceTree.obey]
    rw [hsections]
    split
    · exact { h with sections := rfl }
    · exact { h with tree := hR.report htree (hR.fault _) pos }
  | includeFile path =>
    dsimp only [SourceTree.obey]
    rw [hsections, hincluded]
    split
    · rcases findInclude r.setup r.dir r.chain p.included path with ⟨included, fault | ⟨full, text⟩⟩
      · exact ⟨h.kept, rfl, rfl, h.last, hR.report htree (hR.fault fault) pos⟩
      · obtain ⟨hlines, hread⟩ := hreader (full :: r.chain) full text htree
        exact ⟨List.rel_append (List.rel_reverse hlines) h.kept, rfl, rfl, h.last, hread⟩
    · exact h

theorem line {l m : SourceLine} (hlm : R.lines l m) {x y : ReadState} (h : R.Alike x y) :
    R.Alike (r.line x l) (r.line y m) := by
  have hdirective := hR.directive hlm
  have hlast : R.Alike ({ x.1 with last := l.pos.line }, x.2) ({ y.1 with last := l.pos.line }, y.2) :=
    { h with last := rfl }
  rw [r.line_eq, r.line_eq, hR.pos hlm, h.sections]
  generalize l.directive? = d at hdirective
  generalize m.directive? = d' at hdirective
  cases hdirective with
  | some hd => exact hR.obey hreader l.pos hd hlast
  | none =>
    dsimp only
    split
    · exact { hlast with kept := .cons hlm h.kept }
    · exact hlast

theorem fileLines {ls ms : List SourceLine} (hlines : List.Forall₂ R.lines ls ms) {x y : ReadState} (h : R.Alike x y) :
    R.Alike (r.lines ls x) (r.lines ms y) := by
  induction hlines generalizing x y with
  | nil => exact h
  | cons hlm _ ih => exact ih (hR.line hreader hlm h)

end

theorem enterFile (h : R.trees t u) (name : String) (dir : Option String) {text text' : String}
    (htext : R.texts text text') : R.trees (t.enterFile name dir text) (u.enterFile name dir text') := by
  have hreported {xs ys : List (Nat × Fault)} (hxs : List.Forall₂ (fun x y => y.1 = x.1 ∧ R.faults x.2 y.2) xs ys)
      (file : Nat) {t u : SourceTree} (h : R.trees t u) :
      R.trees (xs.foldl (fun t x => t.report x.2 ⟨file, x.1⟩) t)
        (ys.foldl (fun t x => t.report x.2 ⟨file, x.1⟩) u) := by
    induction hxs generalizing t u with
    | nil => exact h
    | @cons x y _ _ hxy _ ih =>
      obtain ⟨line, fault⟩ := x
      obtain ⟨line', fault'⟩ := y
      obtain ⟨rfl, hfault⟩ : line' = line ∧ R.faults fault fault' := hxy
      exact ih (hR.report h hfault _)
  unfold SourceTree.enterFile
  rw [hR.names h]
  exact hreported (hR.unread htext t.names.size) _ (hR.openFile h name dir htext)

section
variable (setup : SourceSetup) (depth : Nat) (dir : Option String) (chain : List String)

theorem readFile (name : String) {text text' : String} (htext : R.texts text text') (h : R.trees t u) :
    List.Forall₂ R.lines (SourceTree.readFile setup depth dir chain name text t).1
        (SourceTree.readFile setup depth dir chain name text' u).1 ∧
      R.trees (SourceTree.readFile setup depth dir chain name text t).2
        (SourceTree.readFile setup depth dir chain name text' u).2 := by
  induction depth generalizing dir chain name text text' t u with
  | zero => exact ⟨.nil, h⟩
  | succ depth ih =>
    have hreader : R.Reads (FileReader.nested setup depth dir chain).readFile :=
      fun chain name text _ _ h => ih (some (Path.parent name)) chain name (hR.text text) h
    have hentered : R.Alike ({}, t.enterFile name dir text) ({}, u.enterFile name dir text') :=
      ⟨.nil, rfl, rfl, rfl, hR.enterFile h name dir htext⟩
    have hread := hR.fileLines hreader (hR.lines htext t.names.size) hentered
    rw [readFile_succ, readFile_succ, hR.names h]
    refine ⟨List.rel_reverse hread.kept, ?_⟩
    dsimp only
    unfold FileProgress.finish
    rw [hread.sections, hread.last]
    split
    · exact hread.tree
    · exact hR.report hread.tree (hR.fault _) _

theorem reader : R.Reads (FileReader.nested setup depth dir chain).readFile :=
  fun chain name text _ _ h => hR.readFile setup depth (some (Path.parent name)) chain name (hR.text text) h

end

end ParallelReading

end SpectrumAsm
