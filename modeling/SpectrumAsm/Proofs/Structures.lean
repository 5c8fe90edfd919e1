/-
Invariants of structures and their instances.

The lines of a structure only emit data. So nothing but data is put behind an instance as long as it is open,
and an override always finds the instance in the segment its own bytes were just put into.
-/
import SpectrumAsm.Proofs.Segments

namespace SpectrumAsm

open SymbolTable

/-! ## The open instance -/

/-- The open structure instance, if there is one, lies in the segment code is put into. -/
def Assembly.InstanceInPlace (a : Assembly) : Prop := ∀ i, a.opened = some i → i.segment = a.lastSegment

namespace Assembly.InstanceInPlace

variable {a b : Assembly}

theorem same (h : a.InstanceInPlace) (ho : b.opened = a.opened)
    (hl : b.lastSegment = a.lastSegment) : b.InstanceInPlace := by
  intro i hi
  rw [hl]
  exact h i (ho ▸ hi)

theorem emit (h : a.InstanceInPlace) (code : Code) : (a.emit code).2.InstanceInPlace := by
  obtain ⟨_, _, he⟩ := a.emit_eq code
  exact h.same (by rw [he]) (a.lastSegment_emit code)

theorem moveOverride (h : b.InstanceInPlace) {i : StructInstance} (hi : b.opened = some i)
    (source first : Nat) : (b.moveOverride i source first).2.InstanceInPlace := by
  unfold Assembly.moveOverride
  dsimp only
  split
  · exact h.same rfl (by simp [cutPending, cutSegment, lastSegment])
  · intro j hj
    have hsize : ∀ c : Assembly, c.segments.size = b.segments.size → i.segment = c.lastSegment := by
      intro c hc
      unfold lastSegment
      rw [hc]
      exact h i hi
    cases hj
    refine hsize _ ?_
    split <;> simp [patchBytes, cutSegment]

theorem move (h : a.InstanceInPlace) (hm : Move a b) : b.InstanceInPlace := by
  cases hm with
  | note hn => exact h.same hn.opened hn.lastSegment
  | openSegment =>
    obtain ⟨_, ho⟩ := a.openSegment_eq
    exact h.same (by rw [ho]) a.lastSegment_openSegment
  | emit _ => exact h.emit _
  | setOrigin hnone start =>
    intro i hi
    obtain ⟨segments, ho⟩ := a.setOrigin_eq start
    rw [ho] at hi
    cases hnone.symm.trans hi
  | displace d => exact h.same rfl (by simp [lastSegment])
  | @awaitEqu _ _ label _ _ hd =>
    rcases a.define_cases label .equ none with ⟨fault, hc⟩ | ⟨-, hc⟩ <;> rw [hc] at hd <;> cases hd
    exact h
  | openInstance hi =>
    intro j hj
    cases hj
    exact hi
  | seek hi cursor =>
    have hsegment := h _ hi
    intro j hj
    cases hj
    exact hsegment
  | closeInstance =>
    intro j hj
    cases hj
  | @override b i code hi _ _ he =>
    have hemit := h.emit code
    obtain ⟨segments, pending, hb⟩ := a.emit_eq code
    rw [he] at hemit hb
    exact hemit.moveOverride (by rw [hb]; exact hi) _ _
  | settle _ ht =>
    obtain ⟨o, hs⟩ := settles_of_tryPatch ht
    exact h.same hs.rest.2.1 hs.rest.2.2.2
  | @giveUp _ _ p _ =>
    have hn := reportWaiting_noted a p
    exact h.same hn.opened hn.lastSegment
  | _ => exact h

end Assembly.InstanceInPlace

theorem Reachable.instanceInPlace {a : Assembly} (h : Reachable a) : a.InstanceInPlace :=
  h.invariant (fun _ _ hi => by cases hi) fun _ _ hm ha => ha.move hm

/-! ## Lines of structures -/

/-- The structures of a module consist of lines that may stand in a structure. -/
def Module.StructsFit (m : Module) : Prop :=
  ∀ key d, m.structs.get? key = some d → ∀ line ∈ d.body, fitsStruct line = true

/-- The structures of all modules consist of lines that may stand in a structure. -/
def SymbolTable.StructsFit (t : SymbolTable) : Prop := ∀ (id : Nat) (m : Module), t.modules[id]? = some m → m.StructsFit

namespace SymbolTable.StructsFit

variable {t u : SymbolTable}

section
variable (h : t.StructsFit)
include h

theorem modifyModule (id : Nat) {f : Module → Module} (hf : ∀ m, m.StructsFit → (f m).StructsFit) :
    (t.modifyModule id f).StructsFit := by
  intro j m hm
  unfold SymbolTable.modifyModule at hm
  rw [Array.getElem?_modify] at hm
  split at hm
  · obtain ⟨m', hm', rfl⟩ := Option.map_eq_some_iff.1 hm
    exact hf m' (h j m' hm')
  · exact h j m hm

theorem modifySymbols (slot : Slot) (f : NameTable Symbol → NameTable Symbol) :
    (t.modifySymbols slot f).StructsFit := by
  cases slot with
  | scope id => exact h
  | module id => exact h.modifyModule id fun m hm => hm

theorem storeVar (slot : Slot) (key : String) (value : Value) (pos : Position) :
    (t.storeVar slot key value pos).StructsFit := by
  unfold SymbolTable.storeVar
  split
  · exact h.modifySymbols slot _
  · exact h.modifySymbols slot _

theorem enterModule {name : String} (he : t.enterModule name = .ok u) : u.StructsFit := by
  rcases enterModule_eq he with ⟨-, rfl⟩ | ⟨_, -, -, rfl⟩
  · exact h
  · have hpushed : StructsFit { t with
        modules := t.modules.push { name := Text.upcase name, parent := some t.current } } := by
      intro id m hm
      rw [Array.getElem?_push] at hm
      split at hm
      · cases hm
        intro key d hd
        cases hd
      · exact h id m hm
    exact hpushed.modifyModule t.current fun m hm => hm

theorem change (hc : t.Change u) : u.StructsFit := by
  cases hc with
  | openScope kind => exact h
  | modifyTop f _ =>
    unfold modifyTop
    split <;> exact h
  | add _ => exact h.modifySymbols _ _
  | setVar _ value pos => exact h.storeVar _ _ value pos
  | count id key value => exact h.modifySymbols (.scope id) _
  | enterModule he => exact h.enterModule he
  | leaveModule =>
    obtain ⟨_, hleft⟩ := t.leaveModule_eq
    rw [hleft]
    exact h
  | addMacro d => exact h.modifyModule _ fun m hm => hm
  | @addStruct d hd =>
    refine h.modifyModule _ fun m hm key d' hget => ?_
    by_cases hk : key = d.name
    · subst hk
      rw [NameTable.get?_insert_self] at hget
      cases hget
      exact hd
    · dsimp only at hget
      rw [NameTable.get?_insert_other _ _ hk] at hget
      exact hm key d' hget

theorem findStruct {name : String} {d : StructDef} (hd : t.findStruct? name = some d) :
    ∀ line ∈ d.body, fitsStruct line = true := by
  obtain ⟨id, -, hid⟩ := List.exists_of_findSome?_eq_some hd
  obtain ⟨m, hm, hget⟩ := Option.bind_eq_some_iff.1 hid
  exact h id m hm _ d hget

end

end SymbolTable.StructsFit

/-- What a move can do to the symbol table. -/
theorem Move.symbols_cases {a b : Assembly} (h : Move a b) :
    (∃ used, b.symbols = { a.symbols with used }) ∨ a.symbols.Change b.symbols ∨
      (∃ keep, b.symbols = a.symbols.closeScope keep) ∨
      ∃ used slot key value, b.symbols = assign { a.symbols with used } slot key value := by
  have hsame : ∀ {c : Assembly}, c.symbols = a.symbols → ∃ used, c.symbols = { a.symbols with used } :=
    fun hc => ⟨a.symbols.used, hc⟩
  cases h with
  | note h => exact .inl h.symbols
  | symbols h => exact .inr (.inl h)
  | closeScope => exact .inr (.inr (.inl ⟨_, rfl⟩))
  | openSegment =>
    obtain ⟨_, ho⟩ := a.openSegment_eq
    exact .inl (hsame (by rw [ho]))
  | @emit code _ =>
    obtain ⟨_, _, he⟩ := a.emit_eq code
    exact .inl (hsame (by rw [he]))
  | setOrigin _ start =>
    obtain ⟨_, ho⟩ := a.setOrigin_eq start
    exact .inl (hsame (by rw [ho]))
  | @awaitEqu _ _ label _ _ hd =>
    rcases a.define_cases label .equ none with ⟨fault, h⟩ | ⟨hfree, h⟩ <;> rw [h] at hd <;> cases hd
    exact .inr (.inl (.add hfree))
  | @override _ i _ _ _ _ he =>
    obtain ⟨_, _, _, _, ho⟩ := Assembly.override_eq he i (a.segmentSize i.segment) a.pending.size
    exact .inl (hsame (by rw [ho]))
  | @settle b kept rest p _ ht =>
    obtain ⟨o, hs⟩ := settles_of_tryPatch ht
    have hasked := Noted.ofAsked (Asked.evalAt a p.place p.expr)
    cases hs with
    | @applied c _ v he ha =>
      rw [he] at hasked
      rcases applyPatch_cases ha with ⟨slot, name, -, -, rfl⟩ | ⟨_, _, rfl, -⟩ | ⟨_, _, rfl, -⟩
      · obtain ⟨used, hu⟩ := hasked.symbols
        exact .inr (.inr (.inr ⟨used, slot, name, v, congrArg (fun t => assign t slot name v) hu⟩))
      · exact .inl hasked.symbols
      · exact .inl hasked.symbols
    | refused he _ | failed he =>
      rw [he] at hasked
      exact .inl hasked.symbols
  | giveUp _ => exact .inl (reportWaiting_noted a _).symbols
  | _ => exact .inl (hsame rfl)

theorem SymbolTable.StructsFit.closeScope {t : SymbolTable} (h : t.StructsFit) (keep : Bool) :
    (t.closeScope keep).StructsFit := by
  obtain ⟨_, hclosed, -⟩ := t.closeScope_eq keep
  rw [hclosed]
  exact h

theorem Reachable.structsFit {a : Assembly} (h : Reachable a) : a.symbols.StructsFit := by
  refine h.invariant (P := fun a => a.symbols.StructsFit) (fun setup id m hm => ?_) fun a b hm ha => ?_
  · intro key d hd
    cases id with
    | zero => cases hm; cases hd
    | succ id => cases hm
  · rcases hm.symbols_cases with ⟨used, hb⟩ | hc | ⟨keep, hb⟩ | ⟨used, slot, key, value, hb⟩
    · rw [hb]
      exact ha
    · exact ha.change hc
    · rw [hb]
      exact ha.closeScope keep
    · rw [hb]
      exact StructsFit.modifySymbols (t := { a.symbols with used }) ha slot _

end SpectrumAsm
