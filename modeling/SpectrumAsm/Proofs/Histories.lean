/-
The history of an assembly, with the scopes and modules it goes through.

A history says which scopes open and close and when the patches of a scope are resolved. In between there are
only turns: actions of single lines, which change no place that is not open, settle no patch, and take one out
of the queue only by an override.
-/
import SpectrumAsm.Proofs.PatchRanges

namespace SpectrumAsm

/-! ## Turns -/

/-- An action of a line. The patches that waited before still wait, but for those an override
touches. -/
structure Turn (a : Assembly) (xs : List Extent) (b : Assembly) : Prop where
  action : Action a xs b
  table : a.symbols.Local b.symbols
  depth : b.macroDepth = a.macroDepth
  queue : ∀ p ∈ a.pending, p ∈ b.pending ∨ ∃ x ∈ xs, p.touches x.segment x.start x.stop = true

namespace Turn

variable {a b c : Assembly}

theorem idle (h : Idle a b) (ht : a.symbols.Local b.symbols) (hd : b.macroDepth = a.macroDepth) : Turn a [] b :=
  ⟨.idle h, ht, hd, fun _ hp => .inl (h.pending ▸ hp)⟩

theorem emit {code : Code} (hc : code.Built a) (hd : a.opened = none ∨ code.IsData) : Turn a [] (a.emit code).2 := by
  obtain ⟨_, _, he⟩ := a.emit_eq code
  refine ⟨.emit hc hd, by rw [he]; exact .refl _, by rw [he], fun p hp => .inl ?_⟩
  rcases h : a.emit code with ⟨fault | _, b⟩
  · rw [Assembly.emit_error h]
    exact (Idle.openSegment a).pending ▸ hp
  · rw [(hc.emitted h).pending]
    exact Array.mem_append_left _ hp

theorem awaitEntry {e : Expr} {kind : PatchKind} (hk : kind = .entry ∨ kind = .exportEntry)
    (h : a.Awaits e) : Turn a [] (a.addPatch kind a.lastSegment 0 e none) :=
  ⟨.awaitEntry hk h, .refl _, rfl, fun _ hp => .inl (Array.mem_push_of_mem _ hp)⟩

theorem awaitEqu {e : Expr} {label : String} {slot : Slot} (h : a.Awaits e)
    (hd : a.define label .equ none = (.ok slot, b)) :
    Turn a [] (b.addPatch .equ b.lastSegment 0 e (some (slot, Text.upcase label))) := by
  refine ⟨.awaitEqu h hd, ?_, ?_, fun p hp => ?_⟩
  all_goals
    rcases a.define_cases label .equ none with ⟨fault, hc⟩ | ⟨hfree, hc⟩ <;> rw [hc] at hd <;> cases hd
  · exact .add (a.symbols.labelSlot_mem_varSlots _) hfree
  · rfl
  · exact .inl (Array.mem_push_of_mem _ hp)

theorem override {i : StructInstance} {code : Code} (hi : a.opened = some i)
    (hin : i.segment = a.lastSegment) (hc : code.Built a) (hd : code.IsData) (he : a.emit code = (.ok (), b))
    (hm : b.moveOverride i (a.segmentSize i.segment) a.pending.size = (.ok (), c)) :
    Turn a [i.extent code.bytes.size] c := by
  have haccepted := (hc.emitted he).accepted hin hm
  obtain ⟨_, _, _, _, hmoved⟩ := Assembly.override_eq he i (a.segmentSize i.segment) a.pending.size
  rw [hm] at hmoved
  dsimp only at hmoved
  refine ⟨.override hi hc hd he hm, haccepted.symbols ▸ .refl _, by rw [hmoved], fun p hp => ?_⟩
  cases ht : p.touches i.segment (i.start + i.cursor) (i.start + i.cursor + code.bytes.size) with
  | false =>
    rw [haccepted.pending]
    exact .inl (Array.mem_append_left _ (Array.mem_filter.2 ⟨hp, by rw [ht]; rfl⟩))
  | true => exact .inr ⟨_, List.mem_singleton_self _, ht⟩

end Turn

/-! ## Stages -/

/-- What a history makes mention of. -/
inductive Event where
  /-- an override rewrites part of a segment -/
  | rewrites (x : Extent)
  /-- a scope opens -/
  | opens (id : Nat)
  /-- the patches of the innermost scope are resolved -/
  | ends (id : Nat)
  /-- the innermost scope closes -/
  | closes (id : Nat)
  /-- a module opens -/
  | enters (name : String)
  /-- a module closes -/
  | leaves
  /-- the nesting of macros changes -/
  | deepens (depth : Nat)
  deriving DecidableEq, Repr

def Assembly.enterScope (a : Assembly) (kind : ScopeKind) (pass : Int64) : Assembly :=
  { a with symbols := (a.symbols.openScope kind).modifyTop fun s => { s with counter := pass } }

/-- One thing that happens during a walk. -/
inductive Stage : Assembly → List Event → Assembly → Prop where
  | turn {a b : Assembly} {xs : List Extent} (h : Turn a xs b) : Stage a (xs.map .rewrites) b
  | opens (a : Assembly) (kind : ScopeKind) (pass : Int64) :
    Stage a [.opens a.symbols.nextScope] (a.enterScope kind pass)
  | ends {a : Assembly} {id : Nat} (h : a.symbols.top? = some id) :
    Stage a [.ends id] (a.resolveScope id)
  | closes {a : Assembly} {id : Nat} (h : a.symbols.top? = some id) : Stage a [.closes id] a.closeScope
  | enters {a : Assembly} {name : String} {t : SymbolTable} (h : a.symbols.enterModule name = .ok t) :
    Stage a [.enters name] { a with symbols := t }
  | leaves (a : Assembly) : Stage a [.leaves] { a with symbols := a.symbols.leaveModule }
  | deepens (a : Assembly) (depth : Nat) : Stage a [.deepens depth] { a with macroDepth := depth }

/-- Stages one after the other, with the events on the way. -/
inductive History : Assembly → List Event → Assembly → Prop where
  | refl (a : Assembly) : History a [] a
  | head {a b c : Assembly} {es fs : List Event} (h : Stage a es b) (rest : History b fs c) :
    History a (es ++ fs) c

namespace History

variable {a b c : Assembly} {es fs : List Event}

theorem trans (h : History a es b) (h' : History b fs c) : History a (es ++ fs) c := by
  induction h with
  | refl a => exact h'
  | head h _ ih =>
    rw [List.append_assoc]
    exact .head h (ih h')

theorem single (h : Stage a es b) : History a es b := by
  have := head h (.refl b)
  rwa [List.append_nil] at this

theorem turn {xs : List Extent} (h : Turn a xs b) : History a (xs.map .rewrites) b := single (.turn h)

theorem idle (h : Idle a b) (ht : a.symbols.Local b.symbols) (hd : b.macroDepth = a.macroDepth) :
    History a [] b := turn (.idle h ht hd)

theorem still (h : History a es b) (he : es = []) : a.symbols.Local b.symbols ∧ b.macroDepth = a.macroDepth := by
  induction h with
  | refl a => exact ⟨.refl _, rfl⟩
  | head h _ ih =>
    obtain ⟨rfl, rfl⟩ := List.append_eq_nil_iff.1 he
    obtain ⟨ht, hd⟩ := ih rfl
    generalize hes : ([] : List Event) = es at h
    cases h with
    | turn h => exact ⟨h.table.trans ht, hd.trans h.depth⟩
    | _ => cases hes

end History

/-! ## Courses -/

/-- What overrides rewrite in the course of events. -/
def rewritten (es : List Event) : List Extent := es.filterMap fun
    | .rewrites x => some x
    | _ => none

@[simp] theorem rewritten_append (es fs : List Event) :
    rewritten (es ++ fs) = rewritten es ++ rewritten fs := List.filterMap_append

@[simp] theorem rewritten_map (xs : List Extent) : rewritten (xs.map .rewrites) = xs := by
  induction xs with
  | nil => rfl
  | cons x xs ih => exact congrArg (x :: ·) ih

theorem Stage.course {a b : Assembly} {es : List Event} (h : Stage a es b) : Course a (rewritten es) b := by
  cases h with
  | turn h =>
    rw [rewritten_map]
    exact .single h.action
  | opens kind pass =>
    have hopen : Idle a (a.openScope kind) := .symbols (.openScope a.symbols kind) fun _ _ hb => hb.of_openScope
    have hcount : Idle (a.openScope kind) (a.enterScope kind pass) :=
      .symbols (.modifyTop _ _ fun s => ⟨rfl, rfl, rfl⟩) fun _ _ hb => hb.of_modifyTop fun s => rfl
    exact (Course.single (.idle hopen)).trans (.single (.idle hcount))
  | @ends id _ =>
    obtain ⟨log, h, -⟩ := sweeps_resolution (some id) a.pending.size a
    exact h.course
  | closes _ => exact .single (.idle (.closeScope a))
  | enters h => exact .single (.idle (.symbols (.enterModule h) fun _ _ hb => hb.of_enterModule h))
  | leaves => exact .single (.idle (.symbols (.leaveModule _) fun _ _ hb => hb.of_leaveModule))
  | deepens depth => exact .single (.idle (.note (by apply Noted.ofSame <;> rfl)))

namespace History

variable {a b : Assembly} {es : List Event}

theorem course (h : History a es b) : Course a (rewritten es) b := by
  induction h with
  | refl a => exact .refl a
  | head h _ ih =>
    rw [rewritten_append]
    exact h.course.trans ih

theorem acts (h : History a es b) : Acts a b := ⟨_, h.course⟩

theorem moves (h : History a es b) : Moves a b := h.course.moves

theorem arises (h : History a es b) (ha : Arises a) : Arises b := ha.course h.course

end History

end SpectrumAsm
