/-
How the code of a line comes about.

Code grows by bytes, by a hole for an operand and by a branch with a hole for its distance (`Code.Built`).
Operations and data pragmas evaluate first and then put such code into the segment in one piece
(`Step.Emits`).
-/
import SpectrumAsm.Assembly.Pragma
import SpectrumAsm.Proofs.Evaluating

namespace SpectrumAsm

open List Step Code

variable {c d : Code} {e : Expr} {x : Step Code}

namespace Code

@[simp] theorem bytes_add (c : Code) (bytes : List UInt8) : (c.add bytes).bytes = c.bytes ++ bytes.toArray := by
  apply Array.ext'
  simp [add]

@[simp] theorem holes_add (c : Code) (bytes : List UInt8) : (c.add bytes).holes = c.holes := rfl

@[simp] theorem bytes_addHole (c : Code) (kind : PatchKind) (e : Expr) : (c.addHole kind e).bytes = c.bytes := rfl

@[simp] theorem holes_addHole (c : Code) (kind : PatchKind) (e : Expr) :
    (c.addHole kind e).holes = c.holes ++ [(kind, c.bytes.size, e)] := rfl

end Code

/-! ## Operands -/

/-- The sizes of operands whose value goes into the code as it is. -/
inductive OperandSize where
  | byte | word
  deriving DecidableEq, Repr

namespace OperandSize

/-- The patch that fills in an operand. -/
def kind : OperandSize → PatchKind
  | byte => .byte
  | word => .word

/-- The patch that fills in an operand of an overridden field. -/
def fieldKind : OperandSize → PatchKind
  | byte => .fieldByte
  | word => .fieldWord

def bytes : OperandSize → UInt16 → List UInt8
  | byte, w => [w.toUInt8]
  | word, w => littleEndian w

/-- What stands in the place of an operand that is not known yet. -/
def blank : OperandSize → List UInt8
  | byte => [0]
  | word => [0, 0]

def add : OperandSize → Code → Expr → Step Code
  | byte => addByteOf
  | word => addWordOf

@[simp] theorem inField_kind (size : OperandSize) : size.kind.inField = size.fieldKind := by
  cases size <;> rfl

@[simp] theorem length_bytes (size : OperandSize) (w : UInt16) : (size.bytes w).length = size.kind.span := by
  cases size <;> rfl

@[simp] theorem length_blank (size : OperandSize) : size.blank.length = size.kind.span := by
  cases size <;> rfl

theorem kind_ne_branch (size : OperandSize) : size.kind ≠ .branch := by
  cases size <;> simp [kind]

end OperandSize

/-- A step that adds what an expression comes to on a line: its bytes if its value is known, and a
hole with nothing in it if it waits. -/
def Step.Enters (c : Code) (kind : PatchKind) (blank : List UInt8) (e : Expr)
    (bytes : Assembly → Value → Except Fault (List UInt8)) (x : Step Code) : Prop :=
  ∀ a, x.run.run a = match a.evalAt a.place e with
    | (.ok (.ready v), b) => ((bytes a v).map c.add, b)
    | (.ok (.pending _), b) => (.ok ((c.addHole kind e).add blank), b)
    | (.error fault, b) => (.error fault, b)

namespace Step.Enters

variable {kind : PatchKind} {blank : List UInt8}
  {bytes : Assembly → Value → Except Fault (List UInt8)} {a b : Assembly}

theorem asked (h : x.Enters c kind blank e bytes) (a : Assembly) : Asked a (x.run.run a).2 := by
  have hasked := Asked.evalAt a a.place e
  rw [h a]
  rcases he : a.evalAt a.place e with ⟨fault | v | names, b⟩ <;> rw [he] at hasked <;> exact hasked

theorem ok (h : x.Enters c kind blank e bytes) (hx : x.run.run a = (.ok d, b)) :
    (a.Awaits e ∧ d = (c.addHole kind e).add blank) ∨
      ¬ a.Awaits e ∧ ∃ v bs, a.evalAt a.place e = (.ok (.ready v), b) ∧ bytes a v = .ok bs ∧ d = c.add bs := by
  have hpending := @Assembly.evalAt_pending_iff a e a.place
  rw [h a] at hx
  rcases he : a.evalAt a.place e with ⟨fault | v | names, b'⟩ <;> rw [he] at hx hpending
  · cases hx
  · refine .inr ⟨fun hw => (nomatch hpending.2 ⟨hw, rfl⟩), ?_⟩
    dsimp only at hx
    cases hbs : bytes a v <;> rw [hbs] at hx <;> cases hx
    exact ⟨v, _, rfl, hbs, rfl⟩
  · cases hx
    exact .inl ⟨(hpending.1 rfl).1, rfl⟩

end Step.Enters

theorem OperandSize.add_enters (size : OperandSize) (c : Code) (e : Expr) :
    (size.add c e).Enters c size.kind size.blank e fun _ v => v.lowWord.map size.bytes := by
  intro a
  have hrun : (evalExpr e).run.run a = a.evalAt a.place e := rfl
  rcases h : a.evalAt a.place e with ⟨fault | v | names, b⟩ <;> rw [h] at hrun
  · cases size <;> exact run_bind_error hrun
  · cases size <;> refine (run_bind_ok hrun).trans ((run_ofExcept_bind _ _ b).trans ?_) <;>
      dsimp only <;> cases v.lowWord <;> rfl
  · cases size <;> exact run_bind_ok hrun

theorem addBranch_enters (c : Code) (opcode : UInt8) (target : Expr) :
    (addBranch c opcode target).Enters c .branch [opcode, 0] target fun a v =>
      (v.lowWord.bind fun w => branchByte w a.origin).map fun d => [opcode, d] := by
  intro a
  have hrun : (evalExpr target).run.run a = a.evalAt a.place target := rfl
  have hasked := Asked.evalAt a a.place target
  rcases h : a.evalAt a.place target with ⟨fault | v | names, b⟩ <;> rw [h] at hrun hasked
  · exact run_bind_error hrun
  · refine (run_bind_ok hrun).trans ((run_ofExcept_bind v.lowWord _ b).trans ?_)
    dsimp only at hasked ⊢
    cases v.lowWord with
    | error fault => rfl
    | ok w =>
      refine (run_ofExcept_bind _ _ b).trans ?_
      rw [hasked.origin]
      dsimp only [Except.bind]
      cases branchByte w a.origin <;> rfl
  · exact run_bind_ok hrun

/-! ## Code of a line -/

/-- The number of bytes between the offset of a patch and the bytes it fills: a branch has its opcode
there. -/
def PatchKind.lead : PatchKind → Nat
  | .branch => 1
  | _ => 0

namespace Code

def Extends (c d : Code) : Prop := (∃ more, d.bytes = c.bytes ++ more) ∧ ∃ more, d.holes = c.holes ++ more

theorem Extends.refl (c : Code) : c.Extends c := ⟨⟨#[], by simp⟩, ⟨[], by simp⟩⟩

theorem Extends.trans {e : Code} (h : c.Extends d) (h' : d.Extends e) : c.Extends e := by
  obtain ⟨⟨bs, hb⟩, hs, hh⟩ := h
  obtain ⟨⟨bs', hb'⟩, hs', hh'⟩ := h'
  exact ⟨⟨bs ++ bs', by rw [hb', hb, Array.append_assoc]⟩, hs ++ hs', by rw [hh', hh, append_assoc]⟩

theorem Extends.add (c : Code) (bytes : List UInt8) : c.Extends (c.add bytes) := ⟨⟨bytes.toArray, by simp⟩, [], by simp⟩

theorem Extends.addHole (c : Code) (kind : PatchKind) (e : Expr) (bytes : List UInt8) :
    c.Extends ((c.addHole kind e).add bytes) :=
  ⟨⟨bytes.toArray, by simp⟩, _, rfl⟩

/-- Code as it comes about on the line being assembled. All of its holes are for expressions that
have to wait there. -/
inductive Built (a : Assembly) : Code → Prop where
  | nil : Built a {}
  | bytes {c : Code} (bs : List UInt8) : Built a c → Built a (c.add bs)
  | operand {c : Code} {e : Expr} (size : OperandSize) :
    Built a c → a.Awaits e → Built a ((c.addHole size.kind e).add size.blank)
  | branch {c : Code} {target : Expr} (opcode : UInt8) :
    Built a c → a.Awaits target → Built a ((c.addHole .branch target).add [opcode, 0])

/-- A hole among the bytes of code: its expression has to wait, and it has blank bytes of its own. -/
structure HoleIn (a : Assembly) (hole : PatchKind × Nat × Expr) (bytes : Array UInt8) : Prop where
  awaits : a.Awaits hole.2.2
  pos : 0 < hole.1.span
  inside : hole.2.1 + hole.1.lead + hole.1.span ≤ bytes.size
  blank : ∀ j < hole.1.span, bytes[hole.2.1 + hole.1.lead + j]? = some 0

namespace HoleIn

variable {a : Assembly} {bytes : Array UInt8}

theorem append {hole : PatchKind × Nat × Expr} (h : HoleIn a hole bytes) (more : Array UInt8) :
    HoleIn a hole (bytes ++ more) := by
  have hinside := h.inside
  refine ⟨h.awaits, h.pos, by rw [Array.size_append]; omega, fun j hj => ?_⟩
  rw [Array.getElem?_append_left (by omega), h.blank j hj]

theorem new {kind : PatchKind} {bs : List UInt8} (he : a.Awaits e) (hpos : 0 < kind.span)
    (hsize : kind.lead + kind.span ≤ bs.length) (hblank : ∀ j < kind.span, bs[kind.lead + j]? = some 0) :
    HoleIn a (kind, bytes.size, e) (bytes ++ bs.toArray) := by
  refine ⟨he, hpos, ?_, fun j hj => ?_⟩ <;> dsimp only
  · rw [Array.size_append, bs.size_toArray]
    omega
  · rw [Array.getElem?_append_right (by omega), Nat.add_assoc, Nat.add_sub_cancel_left, getElem?_toArray, hblank j hj]

end HoleIn

def IsData (c : Code) : Prop := ∀ hole ∈ c.holes, hole.1 ≠ .branch

namespace Built

variable {a b : Assembly}

theorem ofBytes (a : Assembly) (bs : List UInt8) : (Code.ofBytes bs).Built a := by
  have h : Code.ofBytes bs = ({} : Code).add bs := by
    simp [Code.ofBytes, add]
  rw [h]
  exact .bytes bs .nil

theorem asked (h : c.Built a) (hab : Asked a b) : c.Built b := by
  induction h with
  | nil => exact .nil
  | bytes bs _ ih => exact .bytes bs ih
  | operand size _ he ih => exact .operand size ih (hab.awaits.2 he)
  | branch opcode _ he ih => exact .branch opcode ih (hab.awaits.2 he)

theorem hole (h : c.Built a) {hole : PatchKind × Nat × Expr} (hm : hole ∈ c.holes) : HoleIn a hole c.bytes := by
  induction h with
  | nil => simp at hm
  | bytes bs _ ih =>
    rw [bytes_add]
    exact (ih hm).append _
  | @operand c e size _ he ih =>
    rw [bytes_add]
    rcases mem_append.1 hm with hm | hm
    · exact (ih hm).append _
    · cases mem_singleton.1 hm
      cases size <;> exact .new he (by decide) (by decide) (by decide)
  | @branch c e opcode _ he ih =>
    rw [bytes_add]
    rcases mem_append.1 hm with hm | hm
    · exact (ih hm).append _
    · cases mem_singleton.1 hm
      refine .new he (by decide) (Nat.le_refl 2) fun j hj => ?_
      obtain rfl : j = 0 := Nat.lt_one_iff.1 hj
      rfl

theorem holes_of_empty (h : c.Built a) (hempty : c.bytes.size = 0) : c.holes = [] := by
  refine eq_nil_iff_forall_not_mem.2 fun hole hm => ?_
  have := (h.hole hm).pos
  have := (h.hole hm).inside
  omega

end Built

end Code

/-- A step that adds to the code of a line: it only evaluates, and what it answers is the code it
was given with more added. -/
def Step.Builds (c : Code) (x : Step Code) : Prop := ∀ a, c.Built a → Asked a (x.run.run a).2 ∧
    ∀ d, (x.run.run a).1 = .ok d → d.Built (x.run.run a).2 ∧ c.Extends d

theorem addByte_builds (c : Code) (b : UInt8) : (addCell c (.byte b)).Builds c := fun a hc =>
  ⟨Asked.refl a, fun _ hd => by cases hd; exact ⟨.bytes _ hc, .add c [b]⟩⟩

theorem Step.Enters.builds {kind : PatchKind} {blank : List UInt8}
    {bytes : Assembly → Value → Except Fault (List UInt8)} (h : x.Enters c kind blank e bytes)
    (hhole : ∀ b, c.Built b → b.Awaits e → ((c.addHole kind e).add blank).Built b) : x.Builds c := by
  refine fun a hc => ⟨h.asked a, fun d hd => ?_⟩
  have hc' := hc.asked (h.asked a)
  rcases h.ok (Prod.ext hd rfl) with ⟨hwaits, rfl⟩ | ⟨-, -, bs, -, -, rfl⟩
  · exact ⟨hhole _ hc' ((h.asked a).awaits.2 hwaits), .addHole c _ e _⟩
  · exact ⟨.bytes _ hc', .add c _⟩

theorem OperandSize.add_builds (size : OperandSize) (c : Code) (e : Expr) : (size.add c e).Builds c :=
  (size.add_enters c e).builds fun _ => .operand size

theorem addBranch_builds (c : Code) (opcode : UInt8) (target : Expr) : (addBranch c opcode target).Builds c :=
  (addBranch_enters c opcode target).builds fun _ => .branch opcode

theorem addCell_builds (c : Code) (cell : Cell) : (addCell c cell).Builds c := by
  cases cell with
  | byte b => exact addByte_builds c b
  | byteOf e => exact OperandSize.byte.add_builds c e
  | wordOf e => exact OperandSize.word.add_builds c e
  | branch opcode target => exact addBranch_builds c opcode target

theorem foldlM_builds {α : Type} {add : Code → α → Step Code} (h : ∀ c x, (add c x).Builds c)
    (xs : List α) (c : Code) : (xs.foldlM add c).Builds c := by
  induction xs generalizing c with
  | nil => exact fun a hc => ⟨Asked.refl a, fun d hd => by cases hd; exact ⟨hc, .refl c⟩⟩
  | cons x xs ih =>
    intro a hc
    obtain ⟨hasked, hbuilt⟩ := h c x a hc
    rw [foldlM_cons, run_bind]
    rcases hx : (add c x).run.run a with ⟨fault | d, b⟩ <;> rw [hx] at hasked hbuilt
    · exact ⟨hasked, by simp⟩
    · obtain ⟨hd, hcd⟩ := hbuilt d rfl
      obtain ⟨hasked', hbuilt'⟩ := ih d b hd
      refine ⟨hasked.trans hasked', fun e he => ?_⟩
      obtain ⟨he, hde⟩ := hbuilt' e he
      exact ⟨he, hcd.trans hde⟩

theorem OperandSize.foldlM_isData (size : OperandSize) (es : List Expr) (hc : c.IsData)
    {a : Assembly} (h : ((es.foldlM size.add c).run.run a).1 = .ok d) : d.IsData := by
  induction es generalizing c a with
  | nil => cases h; exact hc
  | cons e es ih =>
    rw [foldlM_cons, run_bind] at h
    rcases hx : (size.add c e).run.run a with ⟨fault | c', b⟩ <;> rw [hx] at h
    · cases h
    refine ih (fun hole hm => ?_) h
    rcases (size.add_enters c e).ok hx with ⟨-, rfl⟩ | ⟨-, -, bs, -, -, rfl⟩
    · simp only [holes_add, holes_addHole, mem_append, mem_singleton] at hm
      rcases hm with hm | rfl
      · exact hc hole hm
      · exact size.kind_ne_branch
    · exact hc hole hm

/-! ## Steps that put code into a segment -/

/-- A step that evaluates and then either stops at a fault or puts code of a kind into the
segment. -/
def Step.Emits (P : Code → Prop) (x : Step Unit) : Prop :=
  ∀ a, ∃ b, Asked a b ∧ ((∃ fault, x.run.run a = (.error fault, b)) ∨
    ∃ code : Code, code.Built b ∧ P code ∧ x.run.run a = b.emit code)

namespace Step.Emits

variable {P : Code → Prop} {α : Type}

theorem throw_bind (fault : Fault) (f : α → Step Unit) :
    Emits P ((MonadExcept.throw fault : Step α) >>= f) := fun a =>
  ⟨a, Asked.refl a, .inl ⟨fault, rfl⟩⟩

theorem bind {x : Step α} {f : α → Step Unit} (hx : x.Keeps Asked) (hf : ∀ v, (f v).Emits P) : (x >>= f).Emits P := by
  intro a
  have ha := hx a
  rcases h : x.run.run a with ⟨fault | v, b⟩ <;> rw [h] at ha
  · exact ⟨b, ha, .inl ⟨fault, run_bind_error h⟩⟩
  · obtain ⟨c, hbc, hrest⟩ := hf v b
    rw [run_bind_ok h]
    exact ⟨c, ha.trans hbc, hrest⟩

theorem built (hx : x.Builds {}) (hP : ∀ a d, (x.run.run a).1 = .ok d → P d) : (x >>= emitCode).Emits P := by
  intro a
  obtain ⟨hasked, hbuilt⟩ := hx a .nil
  have hp := hP a
  rcases h : x.run.run a with ⟨fault | d, b⟩ <;> rw [h] at hasked hbuilt hp
  · exact ⟨b, hasked, .inl ⟨fault, run_bind_error h⟩⟩
  · refine ⟨b, hasked, .inr ⟨d, (hbuilt d rfl).1, hp d rfl, ?_⟩⟩
    rw [run_bind_ok h]
    rfl

theorem keeps {R : Assembly → Assembly → Prop} [IsTrans Assembly R] {x : Step Unit} (hx : x.Emits P)
    (hasked : ∀ {a b}, Asked a b → R a b) (hemit : ∀ {a code}, code.Built a → P code → R a (a.emit code).2) :
    x.Keeps R := by
  intro a
  obtain ⟨b, hab, ⟨fault, hr⟩ | ⟨code, hc, hp, hr⟩⟩ := hx a <;> rw [hr]
  · exact hasked hab
  · exact IsTrans.trans a b _ (hasked hab) (hemit hc hp)

end Step.Emits

theorem emitBytes_emits (bytes : List UInt8) : (emitBytes bytes).Emits IsData := fun a =>
  ⟨a, Asked.refl a, .inr ⟨_, .ofBytes a bytes, by simp [IsData, ofBytes], rfl⟩⟩

theorem emitValues_emits (size : OperandSize) (es : List Expr) : (emitValues size.add es).Emits IsData :=
  .built (foldlM_builds size.add_builds es {}) fun _ _ h =>
    size.foldlM_isData es (by simp [IsData]) h

theorem emitCells_emits (cells : List Cell) : (emitCells cells).Emits fun _ => True :=
  .built (foldlM_builds addCell_builds cells {}) fun _ _ _ => trivial

theorem emitOperation_emits (m : Cpu.Mnemonic) (operands : List Operand) :
    (emitOperation m operands).Emits fun _ => True := by
  refine .bind .get fun a => .bind (.ofExcept _) fun instruction => ?_
  cases instruction with
  | cells cells => exact emitCells_emits cells
  | choose number cells =>
    exact .bind (evalInt_asked number) fun n => .bind (.ofExcept (cells n)) emitCells_emits

theorem emitFill_emits (count : Int64) (b : UInt8) : (emitFill count b).Emits IsData :=
  .bind (fillCount_asked count 1) fun _ => emitBytes_emits _

theorem emitSkip_emits (target : Expr) (fill : Option Expr) : (emitSkip target fill).Emits IsData :=
  .bind (skipOf_asked target fill) fun (count, b) => emitFill_emits count b

theorem emitAlign_emits (e : Option Expr) : (emitAlign e).Emits IsData := by
  cases e with
  | none => exact .bind (.pure _) fun _ => .bind .get fun _ => emitBytes_emits _
  | some e =>
    refine .bind (evalInt_asked e) fun n => ?_
    split
    · exact .bind (.pure _) fun _ => .bind .get fun _ => emitBytes_emits _
    · exact .throw_bind _ _

theorem emitFile_emits (file : Expr) (offset length : Option Expr) : (emitFile file offset length).Emits IsData := by
  refine .bind (fileOf_asked file offset length) fun bytes => .bind .get fun a => ?_
  split
  · exact .throw_bind _ _
  · exact emitBytes_emits _

theorem runPragma_emits {p : Pragma} (h : p.emitsData = true) (label : Option String) :
    (runPragma label p).Emits IsData := by
  cases p with
  | defb es => exact emitValues_emits .byte es
  | defw es => exact emitValues_emits .word es
  | defm e => exact .bind (messageOf_asked e) emitBytes_emits
  | defn e | defc e => exact .bind (messageOf_asked e) fun bytes => emitBytes_emits _
  | defh e => exact .bind (hexOf_asked e) emitBytes_emits
  | defs count => exact .bind (evalInt_asked count) fun n => emitFill_emits n 0
  | fillb count value =>
    exact .bind (evalInt_asked count) fun n => .bind (fillCount_asked n 1) fun n =>
      .bind (evalInt_asked value) fun b => emitBytes_emits _
  | fillw count value =>
    exact .bind (evalInt_asked count) fun n => .bind (fillCount_asked n 2) fun n =>
      .bind (evalInt_asked value) fun w => emitBytes_emits _
  | defg e | defgx e => exact .bind (patternOf_asked _ e) emitBytes_emits
  | _ => simp [Pragma.emitsData] at h

end SpectrumAsm
