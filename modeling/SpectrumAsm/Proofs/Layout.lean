/-
The layout of code does not depend on what is known.

Two assemblies that are alike in the addresses of their code (`Aligned`) stay so on lines of operations and
data that both accept, and give the same addresses to the labels on these lines, whatever the values of the
symbols (`Twins`).
-/
import SpectrumAsm.Proofs.Branches
import SpectrumAsm.Proofs.ConstantOrder
import SpectrumAsm.Proofs.Places
import SpectrumAsm.Proofs.Sizes

namespace SpectrumAsm

open List Option Assembly Segment

variable {a b a' : Assembly} {x : Step Unit} {name : String} {line : SourceLine} {n : Nat}
  {lines : List SourceLine}

/-! ## Values of labels -/

namespace SymbolTable

/-- The symbol that a label or constant of a name would clash with at the current place. -/
def symbolFor (t : SymbolTable) (key : String) : Option Symbol := (t.symbolsAt (t.labelSlot key)).get? key

section
variable (t : SymbolTable) (slot : Slot) (f : NameTable Symbol → NameTable Symbol)

theorem top_modifySymbols : (t.modifySymbols slot f).top? = t.top? := by
  cases slot <;> rfl

theorem scope_modifySymbols (id : Nat) : ∃ g : Scope → NameTable Symbol,
    (t.modifySymbols slot f).scopes[id]? = t.scopes[id]?.map fun s => { s with symbols := g s } := by
  cases slot with
  | module j => exact ⟨fun s => s.symbols, by simp [modifySymbols, modifyModule]⟩
  | scope j =>
    simp only [modifySymbols, modifyScope, Array.getElem?_modify]
    split
    · exact ⟨fun s => f s.symbols, rfl⟩
    · exact ⟨fun s => s.symbols, by simp⟩

theorem labelSlot_modifySymbols (key : String) : (t.modifySymbols slot f).labelSlot key = t.labelSlot key := by
  have hcurrent : (t.modifySymbols slot f).current = t.current := by cases slot <;> rfl
  have hlocals : (t.modifySymbols slot f).explicitLocals = t.explicitLocals := by cases slot <;> rfl
  unfold labelSlot
  rw [top_modifySymbols, hcurrent, hlocals]
  cases t.top? with
  | none => rfl
  | some id =>
    obtain ⟨g, hg⟩ := t.scope_modifySymbols slot f id
    dsimp only
    rw [hg]
    cases t.scopes[id]? <;> rfl

theorem exit_modifySymbols : (t.modifySymbols slot f).topScope?.bind (·.exit) = t.topScope?.bind (·.exit) := by
  rw [topScope?_exit, topScope?_exit, top_modifySymbols, funext (t.exit?_modifySymbols slot f)]

end

theorem symbolFor_addSymbol {t : SymbolTable} (h : t.WellNested) {s : Symbol}
    (hfree : t.isTaken (t.labelSlot s.name) s.name = false) :
    (t.addSymbol (t.labelSlot s.name) s).symbolFor s.name = some s ∧ ∀ key s', t.symbolFor key = some s' →
        (t.addSymbol (t.labelSlot s.name) s).symbolFor key = some s' := by
  have hat := symbolsAt_modifySymbols_labelSlot h s.name (·.insert s.name s)
  unfold symbolFor addSymbol
  refine ⟨?_, fun key s' hs' => ?_⟩
  · rw [labelSlot_modifySymbols, hat, NameTable.get?_insert_self]
  · rw [labelSlot_modifySymbols]
    by_cases hslot : t.labelSlot key = t.labelSlot s.name
    · rw [hslot] at hs' ⊢
      have hne : key ≠ s.name := by
        rintro rfl
        simp [isTaken, NameTable.contains, hs'] at hfree
      rw [hat, NameTable.get?_insert_other _ _ hne]
      exact hs'
    · rw [symbolsAt_modifySymbols_other _ hslot]
      exact hs'

end SymbolTable

namespace Assembly

def labelValue (a : Assembly) (name : String) : Option Value := (a.symbols.symbolFor (Text.upcase name)).bind (·.value)

def waiting (a : Assembly) : List String := (a.hanging.map (·.1)).toList

end Assembly

/-! ## Labels of lines -/

/-- What stays the same on lines of code: the model, whether the lines are left out, and the values
that labels have. -/
structure Kept (a b : Assembly) : Prop where
  setup : b.setup = a.setup
  model : b.model = a.model
  running : b.isInterrupted = a.isInterrupted
  labels : ∀ name v, a.labelValue name = some v → b.labelValue name = some v

/-- Labels were defined for an address. -/
structure Binds (a : Assembly) (names : List String) (address : UInt16) (b : Assembly) : Prop
    extends Kept a b where
  segments : b.segments = a.segments
  named : ∀ name ∈ names, b.labelValue name = some (.int (Int64.ofNat address.toNat))

theorem Kept.ofUsed (hs : b.setup = a.setup) (hm : b.model = a.model)
    (hy : ∃ used, b.symbols = { a.symbols with used }) : Kept a b := by
  obtain ⟨used, hy⟩ := hy
  refine ⟨hs, hm, ?_, fun name v hv => ?_⟩
  · unfold isInterrupted
    rw [hy]
    rfl
  · unfold labelValue
    rw [hy]
    exact hv

theorem Kept.trans {c : Assembly} (h : Kept a b) (h' : Kept b c) : Kept a c :=
  ⟨h'.setup.trans h.setup, h'.model.trans h.model, h'.running.trans h.running,
    fun name v hv => h'.labels name v (h.labels name v hv)⟩

theorem Kept.effectiveModel (h : Kept a b) : b.effectiveModel = a.effectiveModel := by
  unfold Assembly.effectiveModel
  rw [h.setup, h.model]

namespace Binds

variable {c : Assembly} {names more : List String} {address : UInt16}

theorem ofSame (hg : b.segments = a.segments) (hs : b.setup = a.setup) (hm : b.model = a.model)
    (hy : b.symbols = a.symbols) : Binds a [] address b :=
  ⟨.ofUsed hs hm ⟨a.symbols.used, hy⟩, hg, by simp⟩

theorem trans (h : Binds a names address b) (h' : Binds b more address c) : Binds a (names ++ more) address c := by
  refine ⟨h.toKept.trans h'.toKept, h'.segments.trans h.segments, fun name hn => ?_⟩
  rcases mem_append.1 hn with hn | hn
  · exact h'.labels _ _ (h.named name hn)
  · exact h'.named name hn

theorem address_eq (h : Binds a names address b) : b.address = a.address := by
  unfold Assembly.address
  rw [h.segments, h.setup]

end Binds

theorem bindLabel_binds (ha : a.symbols.WellNested) {address : UInt16}
    (h : (a.bindLabel name address).diagnostics = a.diagnostics) :
    Binds a [name] address (a.bindLabel name address) := by
  unfold bindLabel at h ⊢
  rcases a.define_cases name .label (some (.int (Int64.ofNat address.toNat))) with
    ⟨fault, hd⟩ | ⟨hfree, hd⟩ <;> rw [hd] at h ⊢
  · exact absurd h (report_ne a fault)
  · let s : Symbol := ⟨Text.upcase name, .label, some (.int (Int64.ofNat address.toNat)), a.pos⟩
    obtain ⟨hnew, hold⟩ := SymbolTable.symbolFor_addSymbol ha (s := s) hfree
    refine ⟨⟨rfl, rfl, ?_, fun other v hv => ?_⟩, rfl, ?_⟩
    · unfold isInterrupted
      exact congrArg isSome (a.symbols.exit_modifySymbols _ _)
    · obtain ⟨s', hs', hvalue⟩ := bind_eq_some_iff.1 hv
      exact bind_eq_some_iff.2 ⟨s', hold _ _ hs', hvalue⟩
    · intro other hother
      rw [mem_singleton] at hother
      subst hother
      exact bind_eq_some_iff.2 ⟨s, hnew, rfl⟩

theorem flushLabel_binds (ha : a.symbols.WellNested) (h : a.flushLabel.diagnostics = a.diagnostics) :
    Binds a a.waiting a.address a.flushLabel ∧ a.flushLabel.hanging = none := by
  unfold flushLabel at h ⊢
  unfold waiting
  rcases hh : a.hanging with _ | ⟨name, labelPos⟩ <;> rw [hh] at h
  · exact ⟨.ofSame rfl rfl rfl rfl, hh⟩
  · dsimp only at h ⊢
    have hmoved : Binds a [] a.address { a with hanging := none, pos := labelPos } := .ofSame rfl rfl rfl rfl
    have hnested : (SymbolTable.WellNested ({ a with hanging := none, pos := labelPos } : Assembly).symbols) := ha
    have hdiagnostics : ({ a with hanging := none, pos := labelPos } : Assembly).diagnostics = a.diagnostics := rfl
    have hhanging : ({ a with hanging := none, pos := labelPos } : Assembly).hanging = none := rfl
    generalize ({ a with hanging := none, pos := labelPos } : Assembly) = moved at *
    obtain ⟨_, _, heq⟩ := moved.bindLabel_eq name a.address
    refine ⟨(hmoved.trans (bindLabel_binds hnested (h.trans hdiagnostics.symm))).trans
      (.ofSame rfl rfl rfl rfl), ?_⟩
    rw [heq]
    exact hhanging

theorem bindLineLabel_binds (ha : a.symbols.WellNested) (h : (a.bindLineLabel line).diagnostics = a.diagnostics) :
    Binds a (a.waiting ++ line.label.toList) a.address (a.bindLineLabel line) ∧
      (a.bindLineLabel line).hanging = none := by
  have hflush := flushLabel_calm a
  unfold bindLineLabel at h ⊢
  cases hl : line.label with
  | none =>
    rw [hl] at h
    simpa using flushLabel_binds ha h
  | some label =>
    rw [hl] at h
    dsimp only at h ⊢
    have hbind := Calm.naming.bindLabel a.flushLabel label a.flushLabel.address
    obtain ⟨h₁, h₂⟩ := hflush.moves.reported.between hbind.moves.reported h
    obtain ⟨hwaiting, hnone⟩ := flushLabel_binds ha h₁
    have hlabel := bindLabel_binds (hflush.moves.wellNested ha) h₂
    rw [hwaiting.address_eq] at hlabel ⊢
    obtain ⟨_, _, heq⟩ := a.flushLabel.bindLabel_eq label a.address
    refine ⟨hwaiting.trans hlabel, ?_⟩
    rw [heq]
    exact hnone

/-! ## Two assemblies side by side -/

/-- What of a segment the addresses in it depend on. -/
def Segment.frame (s : Segment) : UInt16 × Option Int32 × Nat := (s.start, s.displacement, s.bytes.size)

/-- Two assemblies whose code lies at the same addresses. -/
structure Aligned (a b : Assembly) : Prop where
  start : b.setup.options.defaultStart = a.setup.options.defaultStart
  frames : b.segments.map frame = a.segments.map frame

namespace Aligned

variable {b' : Assembly}

theorem same (h : Aligned a a') (hs : b.segments = a.segments) (ht : b.setup = a.setup)
    (hs' : b'.segments = a'.segments) (ht' : b'.setup = a'.setup) : Aligned b b' :=
  ⟨by rw [ht, ht', h.start], by rw [hs, hs', h.frames]⟩

theorem size (h : Aligned a b) : b.segments.size = a.segments.size := by
  have hsize := congrArg Array.size h.frames
  simpa using hsize

theorem address_eq (h : Aligned a b) : b.address = a.address := by
  have hback := congrArg Array.back? h.frames
  rw [Array.back?_map, Array.back?_map] at hback
  unfold address
  cases hs : a.segments.back? with
  | none =>
    rw [hs, map_none, map_eq_none_iff] at hback
    rw [hback]
    exact h.start
  | some s =>
    rw [hs, map_some, map_eq_some_iff] at hback
    obtain ⟨s', hs', hframe⟩ := hback
    rw [hs']
    simp only [frame, Prod.mk.injEq] at hframe
    obtain ⟨hstart, hdisplacement, hsize⟩ := hframe
    simp [here, wordAt, addressAt, hstart, hdisplacement, hsize]

theorem openSegment (h : Aligned a b) : Aligned a.openSegment b.openSegment := by
  have hsize := h.size
  by_cases hempty : a.segments = #[]
  · have hempty' : b.segments = #[] := Array.size_eq_zero_iff.1 (by rw [hsize, hempty]; rfl)
    rw [openSegment_of_empty hempty, openSegment_of_empty hempty']
    refine ⟨h.start, ?_⟩
    simp [frame, h.start]
  · have hpos := Array.size_pos_iff.2 hempty
    rw [openSegment_of_size_pos hpos, openSegment_of_size_pos (by omega)]
    exact h

theorem appends (h : Aligned a a') (hb : a.Appends n b) (hb' : a'.Appends n b')
    (ht : b.setup = a.setup) (ht' : b'.setup = a'.setup) : Aligned b b' := by
  refine ⟨by rw [ht, ht', h.start], ?_⟩
  obtain ⟨bytes, hn, hbytes⟩ := hb
  obtain ⟨bytes', hn', hbytes'⟩ := hb'
  rw [hbytes, hbytes']
  unfold extended
  by_cases hzero : n = 0
  · rw [if_pos (Array.size_eq_zero_iff.1 (hn'.trans hzero)), if_pos (Array.size_eq_zero_iff.1 (hn.trans hzero))]
    exact h.frames
  · have hne {bs : Array UInt8} (hs : bs.size = n) : bs ≠ #[] := by
      rintro rfl
      exact hzero hs.symm
    rw [if_neg (hne hn'), if_neg (hne hn)]
    have hlast : a'.lastSegment = a.lastSegment := by
      unfold lastSegment
      rw [h.size]
    have hmodify (segments : Array Segment) {bs : Array UInt8} (hs : bs.size = n) (k : Nat) :
        (segments.modify k fun s => { s with bytes := s.bytes ++ bs }).map frame =
          (segments.map frame).modify k fun f => (f.1, f.2.1, f.2.2 + n) := by
      apply Array.ext_getElem?
      intro i
      simp only [Array.getElem?_map, Array.getElem?_modify]
      split
      · cases segments[i]? with
        | none => rfl
        | some s => simp [frame, hs]
      · rfl
    rw [hmodify _ hn', hmodify _ hn, hlast, h.openSegment.frames]

end Aligned

/-- Two assemblies at the same line, whose code lies at the same addresses and in which certain
labels have the same values. -/
structure Twins (names : List String) (a b : Assembly) : Prop where
  aligned : Aligned a b
  model : a.effectiveModel = b.effectiveModel
  waiting : a.waiting = b.waiting
  named : ∀ name ∈ names, ∃ address : UInt16, a.labelValue name = some (.int (Int64.ofNat address.toNat)) ∧
      b.labelValue name = some (.int (Int64.ofNat address.toNat))
  reachable : Reachable a ∧ Reachable b
  running : a.isInterrupted = false ∧ b.isInterrupted = false

namespace Twins

variable {names more : List String} {b' : Assembly}

theorem kept (h : Twins names a a') (hk : Kept a b) (hk' : Kept a' b') (hm : Moves a b)
    (hm' : Moves a' b') (haligned : Aligned b b') (hw : b.waiting = b'.waiting) : Twins names b b' where
  aligned := haligned
  model := by rw [hk.effectiveModel, hk'.effectiveModel, h.model]
  waiting := hw
  named name hn := by
    obtain ⟨address, hv, hv'⟩ := h.named name hn
    exact ⟨address, hk.labels _ _ hv, hk'.labels _ _ hv'⟩
  reachable := ⟨h.reachable.1.moves hm, h.reachable.2.moves hm'⟩
  running := ⟨hk.running.trans h.running.1, hk'.running.trans h.running.2⟩

theorem binds (h : Twins names a a') (hb : Binds a more a.address b) (hb' : Binds a' more a'.address b')
    (hm : Moves a b) (hm' : Moves a' b') (hw : b.waiting = b'.waiting) : Twins (names ++ more) b b' := by
  have hsame := h.aligned.same hb.segments hb.setup hb'.segments hb'.setup
  have hkept := h.kept hb.toKept hb'.toKept hm hm' hsame hw
  refine { hkept with named := fun name hn => ?_ }
  rcases mem_append.1 hn with hn | hn
  · exact hkept.named name hn
  · rw [h.aligned.address_eq] at hb'
    exact ⟨a.address, hb.named name hn, hb'.named name hn⟩

end Twins

/-! ## Lines of code -/

/-- What a statement emits, if all it does is to emit operands: an operation or data. -/
def Stmt.code? : Stmt → Option (Step Unit)
  | .op m operands => some (emitOperation m operands)
  | .pragma (.defb es) => some (emitValues addByteOf es)
  | .pragma (.defw es) => some (emitValues addWordOf es)
  | _ => none

/-- A line with an operation, data or no more than a label. -/
def SourceLine.IsCode (line : SourceLine) : Prop := ∀ s, line.stmt = some s → s.code?.isSome = true

namespace Stmt

variable {s : Stmt}

theorem code?_emits (h : s.code? = some x) : x.Emits fun _ => True := by
  unfold code? at h
  split at h <;> cases h
  · exact emitOperation_emits _ _
  · exact .built (foldlM_builds OperandSize.byte.add_builds _ {}) fun _ _ _ => trivial
  · exact .built (foldlM_builds OperandSize.word.add_builds _ {}) fun _ _ _ => trivial

theorem code?_size (h : s.code? = some x) {b' : Assembly} (hm : a.effectiveModel = a'.effectiveModel)
    (hx : x.run.run a = (.ok (), b)) (hx' : x.run.run a' = (.ok (), b')) : ∃ n, a.Appends n b ∧ a'.Appends n b' := by
  unfold code? at h
  split at h <;> cases h
  · exact emitOperation_size hm hx hx'
  · exact ⟨_, emitValues_appends .byte _ hx, emitValues_appends .byte _ hx'⟩
  · exact ⟨_, emitValues_appends .word _ hx, emitValues_appends .word _ hx'⟩

theorem code?_walk (h : s.code? = some x) (hs : line.stmt = some s) (walk : Option LineWalker)
    (a : Assembly) :
    (∃ fault, (walkSingle walk line).run a = ((), ({ a with opened := none } : Assembly).report fault)) ∨
      ∃ placed, (walkSingle walk line).run a = (reporting x).run
        { ({ a with opened := none } : Assembly).bindLineLabel line with placed } := by
  unfold walkSingle
  rw [hs]
  unfold code? at h
  cases hp : s.hasParam
  · right
    split at h <;> cases h <;> dsimp only <;> rw [hp] <;> exact ⟨_, rfl⟩
  · left
    split at h <;> cases h <;> dsimp only <;> rw [hp] <;> exact ⟨_, rfl⟩

end Stmt

variable {P : Code → Prop}

theorem Step.Emits.run_ok (h : x.Emits P) (hr : x.run.run a = (.ok (), b)) :
    Kept a b ∧ b.hanging = a.hanging ∧ b.diagnostics = a.diagnostics := by
  obtain ⟨c, ⟨random, used, rfl⟩, ⟨fault, he⟩ | ⟨code, -, -, he⟩⟩ := h a <;> rw [hr] at he
  · cases he
  · obtain ⟨segments, pending, hemit⟩ := emit_eq { a with random, symbols := { a.symbols with used } } code
    rw [← he] at hemit
    subst hemit
    exact ⟨.ofUsed rfl rfl ⟨used, rfl⟩, rfl, rfl⟩

theorem Step.Emits.moves (h : x.Emits P) : x.Keeps Moves := by
  intro a
  obtain ⟨b, hab, ⟨fault, hr⟩ | ⟨code, hc, -, hr⟩⟩ := h a <;> rw [hr]
  · exact .ofAsked hab
  · exact (Moves.ofAsked hab).tail (.emit hc)

theorem Step.Emits.accepted (h : x.Emits P)
    (hd : ((reporting x).run a).2.diagnostics = a.diagnostics) : x.run.run a = (.ok (), ((reporting x).run a).2) := by
  have hmoves := h.moves a
  rw [run_reporting] at hd ⊢
  rcases hr : x.run.run a with ⟨fault | _, b⟩ <;> rw [hr] at hd hmoves
  · obtain ⟨-, hb⟩ := hmoves.reported.between (Moves.report b fault).reported hd
    exact absurd hb (report_ne b fault)

theorem mem_waiting_of_hanging {pos : Position} (h : a.hanging = some (name, pos)) : name ∈ a.waiting := by
  simp [waiting, h]

section
variable {walk walk' : Option LineWalker} {names : List String}

/-- A line of code that is accepted defines the labels for the address it begins at, and emits. -/
theorem walkSingle_code {s : Stmt} (hx : s.code? = some x) (hs : line.stmt = some s) (ha : a.symbols.WellNested)
    (hd : ((walkSingle walk line).run a).2.diagnostics = a.diagnostics) :
    ∃ c, Binds a (a.waiting ++ line.label.toList) a.address c ∧ Moves a c ∧ c.hanging = none ∧
      x.run.run c = (.ok (), ((walkSingle walk line).run a).2) := by
  have hclose : Moves a { a with opened := none } := .single (.closeInstance a)
  rcases Stmt.code?_walk hx hs walk a with ⟨fault, hrun⟩ | ⟨placed, hrun⟩
  · rw [hrun] at hd
    exact absurd hd (report_ne { a with opened := none } fault)
  · rw [hrun] at hd ⊢
    have hlabels := (bindLineLabel_calm { a with opened := none } line).moves
    have hplaced : Noted (bindLineLabel { a with opened := none } line)
        { bindLineLabel { a with opened := none } line with placed } := by
      apply Noted.ofSame <;> rfl
    have hemits := Stmt.code?_emits hx
    have hreporting := hemits.moves.reporting Moves.report
      { bindLineLabel { a with opened := none } line with placed }
    obtain ⟨hbound, hemitted⟩ := (hlabels.reported.trans (Moves.note hplaced).reported).between
      hreporting.reported hd
    obtain ⟨hbinds, hnone⟩ := bindLineLabel_binds (a := { a with opened := none }) ha hbound
    have hopened : Binds a [] a.address { a with opened := none } := .ofSame rfl rfl rfl rfl
    have hnoted : Binds (bindLineLabel { a with opened := none } line) [] a.address
        { bindLineLabel { a with opened := none } line with placed } := .ofSame rfl rfl rfl rfl
    have hall := (hopened.trans hbinds).trans hnoted
    rw [nil_append, append_nil] at hall
    exact ⟨_, hall, (hclose.trans hlabels).trans (Moves.note hplaced), hnone, hemits.accepted hemitted⟩

/-- On a line of code that both accept, two assemblies stay in step, and the labels that are defined
there get the same address. -/
theorem walkSingle_twins (hline : line.IsCode) (h : Twins names a a')
    (hd : ((walkSingle walk line).run a).2.diagnostics = a.diagnostics)
    (hd' : ((walkSingle walk' line).run a').2.diagnostics = a'.diagnostics) :
    ∃ more, Twins more ((walkSingle walk line).run a).2 ((walkSingle walk' line).run a').2 ∧
      ∀ name ∈ names ++ a.waiting ++ line.label.toList,
        name ∈ more ∨ name ∈ ((walkSingle walk line).run a).2.waiting := by
  cases hs : line.stmt with
  | none =>
    unfold walkSingle at hd hd' ⊢
    rw [hs] at hd hd' ⊢
    cases hl : line.label with
    | none =>
      refine ⟨names, h, fun name hn => ?_⟩
      rw [toList_none, append_nil, mem_append] at hn
      exact hn
    | some label =>
      rw [hl] at hd hd'
      have hanging (b : Assembly) : Binds b.flushLabel [] b.address
          { b.flushLabel with hanging := some (label, line.pos) } := .ofSame rfl rfl rfl rfl
      have hmoves (b : Assembly) : Moves b { b.flushLabel with hanging := some (label, line.pos) } :=
        (flushLabel_calm b).moves.trans (Moves.note (.setHanging _ _))
      obtain ⟨hb, -⟩ := flushLabel_binds h.reachable.1.wellNested hd
      obtain ⟨hb', -⟩ := flushLabel_binds h.reachable.2.wellNested hd'
      rw [← h.waiting] at hb'
      refine ⟨_, h.binds (hb.trans (hanging a)) (hb'.trans (hanging a')) (hmoves a) (hmoves a') rfl, fun name hn => ?_⟩
      simp only [toList_some, mem_append, mem_singleton] at hn
      rcases hn with hn | rfl
      · left
        simpa using hn
      · exact .inr (mem_waiting_of_hanging rfl)
  | some s =>
    obtain ⟨x, hx⟩ := isSome_iff_exists.1 (hline s hs)
    have hemits := Stmt.code?_emits hx
    obtain ⟨c, hc, hmoves, hnone, hrun⟩ := walkSingle_code hx hs h.reachable.1.wellNested hd
    obtain ⟨c', hc', hmoves', hnone', hrun'⟩ := walkSingle_code hx hs h.reachable.2.wellNested hd'
    rw [← h.waiting] at hc'
    have hbound := h.binds hc hc' hmoves hmoves' (by simp [waiting, hnone, hnone'])
    obtain ⟨n, happ, happ'⟩ := Stmt.code?_size hx hbound.model hrun hrun'
    obtain ⟨hkept, hhanging, -⟩ := hemits.run_ok hrun
    obtain ⟨hkept', hhanging', -⟩ := hemits.run_ok hrun'
    have hemitted := hemits.moves c
    have hemitted' := hemits.moves c'
    rw [hrun] at hemitted
    rw [hrun'] at hemitted'
    refine ⟨_, hbound.kept hkept hkept' hemitted hemitted'
      (hbound.aligned.appends happ happ' hkept.setup hkept'.setup)
      (by simp [waiting, hhanging, hhanging', hnone, hnone']), fun name hn => .inl ?_⟩
    rw [← append_assoc]
    exact hn

theorem SourceLine.IsCode.role (h : line.IsCode) : line.role = .single := by
  unfold SourceLine.role
  split
  · next statement hs =>
    have hcode := h _ hs
    cases hcode
  · rfl

/-- Twins stay twins on lines of code that both accept, and agree on the labels of these lines. -/
theorem walkLines_twins (hwalk : ∀ w ∈ walk, ∀ lines, (w lines).Keeps Follows)
    (hwalk' : ∀ w ∈ walk', ∀ lines, (w lines).Keeps Follows) (hlines : ∀ line ∈ lines, line.IsCode)
    (hn : lines.length ≤ n) (h : Twins names a a') (hd : ((walkLines walk n lines).run a).2.diagnostics = a.diagnostics)
    (hd' : ((walkLines walk' n lines).run a').2.diagnostics = a'.diagnostics) :
    ∃ more, Twins more ((walkLines walk n lines).run a).2 ((walkLines walk' n lines).run a').2 ∧
      ∀ name ∈ names ++ a.waiting ++ lines.flatMap (·.label.toList),
        name ∈ more ∨ name ∈ ((walkLines walk n lines).run a).2.waiting := by
  induction lines generalizing n a a' names with
  | nil =>
    have hmem (name : String) (hm : name ∈ names ++ a.waiting ++ []) : name ∈ names ∨ name ∈ a.waiting := by
      simpa using hm
    cases n <;> exact ⟨names, h, hmem⟩
  | cons line lines ih =>
    obtain ⟨n, rfl⟩ : ∃ m, n = m + 1 := ⟨n - 1, by simp at hn; omega⟩
    have hline := hlines line (by simp)
    rw [walkLines_single h.running.1 hline.role] at hd ⊢
    rw [walkLines_single h.running.2 hline.role] at hd' ⊢
    have hmoved : Twins names (a.moveTo line.pos) (a'.moveTo line.pos) :=
      h.kept (.ofUsed rfl rfl ⟨_, rfl⟩) (.ofUsed rfl rfl ⟨_, rfl⟩) (.note (.moveTo a _))
        (.note (.moveTo a' _)) (h.aligned.same rfl rfl rfl rfl) h.waiting
    have hbetween {walk : Option LineWalker} (hwalk : ∀ w ∈ walk, ∀ lines, (w lines).Keeps Follows)
        {b : Assembly} (hb : Reachable b)
        (hd : ((walkLines walk n lines).run ((walkSingle walk line).run b).2).2.diagnostics = b.diagnostics) := by
      have hsingle := (walkSingle_follows hwalk line b).moves hb
      have hrest := (walkLines_follows hwalk n lines _).moves (hb.moves hsingle)
      exact hsingle.reported.between hrest.reported hd
    obtain ⟨hd₁, hd₂⟩ := hbetween hwalk hmoved.reachable.1 hd
    obtain ⟨hd₁', hd₂'⟩ := hbetween hwalk' hmoved.reachable.2 hd'
    obtain ⟨more, htwins, hnames⟩ := walkSingle_twins hline hmoved hd₁ hd₁'
    obtain ⟨all, hall, hallnames⟩ := ih (fun l hl => hlines l (by simp [hl])) (by simpa using hn) htwins hd₂ hd₂'
    refine ⟨all, hall, fun name hm => ?_⟩
    rw [flatMap_cons, ← append_assoc, mem_append] at hm
    refine hallnames name ?_
    rcases hm with hm | hm
    · rcases hnames name hm with hmore | hwaiting
      · simp [hmore]
      · simp [hwaiting]
    · exact mem_append_right _ hm

end

/-! ## Layout -/

/-- The state after lines, with the last waiting label defined. -/
def Assembly.walked (a : Assembly) (lines : List SourceLine) : Assembly := ((walkProgram lines).run a).2.flushLabel

theorem walkDepth_eq (depth : Nat) (lines : List SourceLine) :
    ∃ walk : Option LineWalker, walkDepth depth lines = walkLines walk lines.length lines ∧
      ∀ w ∈ walk, ∀ lines, (w lines).Keeps Follows := by
  cases depth with
  | zero => exact ⟨none, rfl, by simp⟩
  | succ depth =>
    refine ⟨some (walkDepth depth), rfl, ?_⟩
    simpa using walkDepth_follows depth

theorem walked_twins (hlines : ∀ line ∈ lines, line.IsCode) (h : Twins [] a a')
    (hd : (a.walked lines).diagnostics = a.diagnostics) (hd' : (a'.walked lines).diagnostics = a'.diagnostics) :
    Twins (a.waiting ++ lines.flatMap (·.label.toList)) (a.walked lines) (a'.walked lines) := by
  have hbetween {b : Assembly} (hb : Reachable b) (hd : (b.walked lines).diagnostics = b.diagnostics) :=
    (walkProgram_runs lines b hb).moves.reported.between (flushLabel_calm _).moves.reported hd
  obtain ⟨hd₁, hd₂⟩ := hbetween h.reachable.1 hd
  obtain ⟨hd₁', hd₂'⟩ := hbetween h.reachable.2 hd'
  obtain ⟨walk, hrun, hwalk⟩ := walkDepth_eq a.setup.options.maxMacroDepth lines
  obtain ⟨walk', hrun', hwalk'⟩ := walkDepth_eq a'.setup.options.maxMacroDepth lines
  have hprogram : (walkProgram lines).run a = (walkLines walk lines.length lines).run a := by
    rw [← hrun]
    rfl
  have hprogram' : (walkProgram lines).run a' = (walkLines walk' lines.length lines).run a' := by
    rw [← hrun']
    rfl
  unfold walked
  rw [hprogram] at hd₁ hd₂ ⊢
  rw [hprogram'] at hd₁' hd₂' ⊢
  obtain ⟨more, htwins, hnames⟩ := walkLines_twins hwalk hwalk' hlines (Nat.le_refl _) h hd₁ hd₁'
  obtain ⟨hb, hnone⟩ := flushLabel_binds htwins.reachable.1.wellNested hd₂
  obtain ⟨hb', hnone'⟩ := flushLabel_binds htwins.reachable.2.wellNested hd₂'
  rw [← htwins.waiting] at hb'
  have hall := htwins.binds hb hb' (flushLabel_calm _).moves (flushLabel_calm _).moves
    (by simp [waiting, hnone, hnone'])
  refine { hall with named := fun name hn => hall.named name ?_ }
  rw [mem_append]
  exact hnames name hn

/-- The layout of code does not depend on what its expressions turn out to be or whether they are known. An
operation appends equally many bytes in any two states that accept it for the same model. So two assemblies whose
code lies at the same addresses before lines of code that both accept still agree in all addresses behind them,
and in that of every label defined on the way. -/
theorem layout_independent_of_values : (∀ m operands a a' b b', a.effectiveModel = a'.effectiveModel →
      (emitOperation m operands).run.run a = (.ok (), b) → (emitOperation m operands).run.run a' = (.ok (), b') →
      ∃ n, a.Appends n b ∧ a'.Appends n b') ∧
    (∀ label es a b, (runPragma label (.defb es)).run.run a = (.ok (), b) → a.Appends es.length b) ∧
    (∀ label es a b, (runPragma label (.defw es)).run.run a = (.ok (), b) → a.Appends (2 * es.length) b) ∧
    ∀ (lines : List SourceLine) (a a' : Assembly), (∀ line ∈ lines, line.IsCode) →
      Reachable a → Reachable a' → Aligned a a' → a.effectiveModel = a'.effectiveModel →
      a.waiting = a'.waiting → a.isInterrupted = false → a'.isInterrupted = false →
      (a.walked lines).diagnostics = a.diagnostics → (a'.walked lines).diagnostics = a'.diagnostics →
      Aligned (a.walked lines) (a'.walked lines) ∧ (a'.walked lines).address = (a.walked lines).address ∧
      ∀ name ∈ a.waiting ++ lines.flatMap (·.label.toList), ∃ address : UInt16,
        (a.walked lines).labelValue name = some (.int (Int64.ofNat address.toNat)) ∧
          (a'.walked lines).labelValue name = some (.int (Int64.ofNat address.toNat)) := by
  refine ⟨fun _ _ _ _ _ _ => emitOperation_size, fun label es a b h => ?_, fun label es a b h => ?_, ?_⟩
  · have hbytes := emitValues_appends .byte es h
    rwa [show es.length * OperandSize.byte.kind.span = es.length from Nat.mul_one _] at hbytes
  · have hwords := emitValues_appends .word es h
    rwa [show es.length * OperandSize.word.kind.span = 2 * es.length from Nat.mul_comm _ 2] at hwords
  · intro lines a a' hlines ha ha' haligned hmodel hwaiting hrun hrun' hd hd'
    have htwins : Twins [] a a' := ⟨haligned, hmodel, hwaiting, by simp, ⟨ha, ha'⟩, ⟨hrun, hrun'⟩⟩
    have hwalked := walked_twins hlines htwins hd hd'
    exact ⟨hwalked.aligned, hwalked.aligned.address_eq, hwalked.named⟩

/-- A load of a constant, a word of it, and a label behind them. -/
def linesBeforeLabel : List SourceLine :=
  let x : Expr := .symbol ⟨["X"], false⟩
  [⟨⟨0, 0⟩, none, some (.op .ld [.reg8 .a, .expr x]), none⟩, ⟨⟨0, 1⟩, none, some (.pragma (.defw [x])), none⟩,
    ⟨⟨0, 2⟩, some "l", none, none⟩]

/-- An assembly that has not begun but knows the constant. -/
def withKnownConstant : Assembly := { new {} with
    symbols := (SymbolTable.new false).addSymbol (.module 0) ⟨"X", .equ, some (.int 7), ⟨0, 0⟩⟩ }

/-- The label is at the same address where the constant is not known and where it is. -/
theorem layout_independent_of_values_late :
    let a : Assembly := .new {}
    let a' := withKnownConstant
    (a.evalAt a.place (.symbol ⟨["X"], false⟩)).1 = .ok (.pending ["X"]) ∧
    (a'.evalAt a'.place (.symbol ⟨["X"], false⟩)).1 = .ok (.ready (.int 7)) ∧
    (a.walked linesBeforeLabel).diagnostics = #[] ∧ (a'.walked linesBeforeLabel).diagnostics = #[] ∧
    ∃ address : UInt16, (a.walked linesBeforeLabel).labelValue "l" = some (.int (Int64.ofNat address.toNat)) ∧
        (a'.walked linesBeforeLabel).labelValue "l" = some (.int (Int64.ofNat address.toNat)) := by
  have ha : Reachable (.new {}) := ⟨{}, .refl⟩
  have ha' : Reachable withKnownConstant := ha.moves (.symbols (.add rfl))
  have hd : (walked (.new {}) linesBeforeLabel).diagnostics = #[] := Array.isEmpty_iff.1 (by decide +kernel)
  have hd' : (withKnownConstant.walked linesBeforeLabel).diagnostics = #[] := Array.isEmpty_iff.1 (by decide +kernel)
  have hlines : ∀ line ∈ linesBeforeLabel, line.IsCode := by
    simp [linesBeforeLabel, SourceLine.IsCode, Stmt.code?]
  obtain ⟨-, -, hlabels⟩ := layout_independent_of_values.2.2.2 linesBeforeLabel (.new {})
    withKnownConstant hlines ha ha' ⟨rfl, rfl⟩ rfl rfl rfl rfl hd hd'
  exact ⟨rfl, rfl, hd, hd', hlabels "l" (by simp [linesBeforeLabel])⟩

end SpectrumAsm
