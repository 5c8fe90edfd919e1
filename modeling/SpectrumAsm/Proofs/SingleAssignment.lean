/-
Labels and constants are assigned once.

A symbol that is no variable never changes once it has a value. A constant that waits has a patch of its own,
and gets the value of the expression of its line at the place of that line. It may go away with the scope it
belongs to, and then its name does not come back to that scope.
-/
import SpectrumAsm.Proofs.Scoping

namespace SpectrumAsm

open List Text SymbolTable Assembly

variable {a b : Assembly} {slot : Slot} {key label : String} {es : List Event} {p : Patch}
  {t : SymbolTable} {id : Nat} {e : Expr} {s : Symbol}

/-! ## One thing after the other -/

/-- One thing that happens in a run. Unlike in a stage, patches are tried one at a time. -/
inductive Happens : Assembly → Assembly → Prop where
  /-- a line does something, or a scope or a module opens or closes -/
  | stage {a b : Assembly} {es : List Event} (h : Stage a es b) (he : ∀ id, es ≠ [.ends id]) : Happens a b
  /-- a patch is tried and goes on waiting -/
  | waits {a : Assembly} {p : Patch} (hp : p ∈ a.pending.toList) (hw : p.Waits a) :
    Happens a (a.evalAt p.place p.expr).2
  /-- a patch is settled -/
  | settles {a b : Assembly} {kept rest : List Patch} {p : Patch} {o : Settlement}
    (hq : a.pending.toList = kept ++ p :: rest) (hs : Settles a p o b) :
    Happens a { b with pending := (kept ++ rest).toArray }
  /-- a patch is given up at the end of the program -/
  | givesUp {a : Assembly} {kept rest : List Patch} {p : Patch} (hq : a.pending.toList = kept ++ p :: rest) :
    Happens a { a.reportWaiting p with pending := (kept ++ rest).toArray }

/-- A state and one that it leads to. -/
abbrev Becomes : Assembly → Assembly → Prop := Relation.ReflTransGen Happens

theorem Resolution.becomes {log : List (Patch × Settlement)} (h : Resolution a log b) : Becomes a b := by
  induction h with
  | refl a => exact .refl
  | wait hp hw _ ih => exact .head (.waits hp hw) ih
  | settle hq hs _ ih => exact .head (.settles hq hs) ih

theorem Stage.becomes (h : Stage a es b) : Becomes a b := by
  by_cases he : ∀ id, es ≠ [.ends id]
  · exact .single (.stage h he)
  · simp only [not_forall, not_not] at he
    obtain ⟨id, rfl⟩ := he
    generalize hes : [Event.ends id] = es at h
    cases h with
    | ends _ =>
      obtain ⟨log, hr, -⟩ := sweeps_resolution (some _) a.pending.size a
      exact hr.becomes
    | turn _ =>
      obtain ⟨_, -, he⟩ := map_eq_singleton_iff.1 hes.symm
      cases he
    | _ => cases hes

theorem History.becomes (h : History a es b) : Becomes a b := by
  induction h with
  | refl a => exact .refl
  | head h _ ih => exact h.becomes.trans ih

theorem assembleLines_run (lines : List SourceLine) (a : Assembly) :
    ((assembleLines lines).run a).2 = ((walkProgram lines).run a).2.flushLabel.resolveAll := rfl

theorem resolveAll_becomes (a : Assembly) : Becomes a a.resolveAll := by
  obtain ⟨log, hr, -⟩ := sweeps_resolution none a.pending.size a
  exact hr.becomes.trans (resolveAll_related (fun _ => .refl) (fun hq => .head (.givesUp hq)) a)

namespace Happens

theorem acts (h : Happens a b) : Acts a b := by
  cases h with
  | stage h _ => exact ⟨_, h.course⟩
  | waits hp hw => exact ⟨_, (Resolution.wait hp hw (.refl _)).course⟩
  | settles hq hs => exact ⟨_, (Resolution.settle hq hs (.refl _)).course⟩
  | givesUp hq => exact ⟨_, .single (.giveUp hq)⟩

theorem orderly_givesUp {kept rest : List Patch} (hq : a.pending.toList = kept ++ p :: rest) (h : a.Orderly) :
    Orderly { a.reportWaiting p with pending := (kept ++ rest).toArray } := by
  obtain ⟨used, hu⟩ := (reportWaiting_noted a p).symbols
  have hold : Orderly { a with pending := (kept ++ rest).toArray } :=
    ⟨h.nested, fun q hm => h.scopes q (mem_pending_of_taken hq hm), h.aimed.sublist (taken_sublist hq)⟩
  refine hold.same ?_ rfl (fun slot => ?_) ?_ <;> dsimp only <;> rw [hu]
  · exact h.nested.used used
  · cases slot <;> rfl
  · exact Nat.le_refl _

theorem orderly (h : Happens a b) (ha : Arises a) (horder : a.Orderly) : b.Orderly := by
  cases h with
  | stage h _ => exact horder.stage h ha
  | waits hp hw => exact horder.resolution (.wait hp hw (.refl _))
  | settles hq hs => exact horder.resolution (.settle hq hs (.refl _))
  | givesUp hq => exact orderly_givesUp hq horder

end Happens

theorem Becomes.invariant {P : Assembly → Prop}
    (hP : ∀ {a b : Assembly}, Happens a b → Arises a → a.Orderly → P a → P b) (h : Becomes a b)
    (ha : Arises a) (horder : a.Orderly) (hpa : P a) : P b ∧ Arises b ∧ b.Orderly := by
  induction h with
  | refl => exact ⟨hpa, ha, horder⟩
  | tail _ h ih =>
    obtain ⟨hpb, hb, hborder⟩ := ih
    obtain ⟨_, hcourse⟩ := h.acts
    exact ⟨hP h hb hborder hpb, hb.course hcourse, h.orderly hb hborder⟩

/-! ## Symbols that are kept -/

/-- The symbol that a place has for a name. -/
def Assembly.held? (a : Assembly) (slot : Slot) (key : String) : Option Symbol := (a.symbols.symbolsAt slot).get? key

theorem Noted.held? (h : Noted a b) (slot : Slot) (key : String) : b.held? slot key = a.held? slot key := by
  obtain ⟨used, hu⟩ := h.symbols
  unfold Assembly.held?
  rw [hu]
  cases slot <;> rfl

theorem SymbolTable.symbolsAt_closeScope_top (h : t.top? = some id) (keep : Bool) :
    (t.closeScope keep).symbolsAt (.scope id) = t.symbolsAt (.scope id) ∨
      (t.closeScope keep).symbolsAt (.scope id) = {} := by
  obtain ⟨_, hclosed, rfl | ⟨id, htop, rfl⟩⟩ := t.closeScope_eq keep <;> rw [hclosed]
  · exact .inl rfl
  · cases h.symm.trans htop
    refine .inr ?_
    simp only [symbolsAt, Array.getElem?_modify, if_pos]
    cases t.scopes[id]? <;> rfl

/-- A scope that was closed, and a name that it does not have. -/
def Assembly.Gone (a : Assembly) (slot : Slot) (key : String) : Prop :=
  ∃ id, slot = .scope id ∧ Sealed id (id + 1) a.symbols a.symbols ∧ a.held? slot key = none

/-- A patch gives its value to a symbol that has none. -/
def Assembly.Gives (a : Assembly) (p : Patch) (slot : Slot) (key : String) (v : Value) : Prop :=
  p.kind = .equ ∧ p.target = some (slot, key) ∧ (a.evalAt p.place p.expr).1 = .ok (.ready v)

namespace Happens

theorem closes_gone (htop : a.symbols.top? = some id) (ha : Arises a) (horder : a.Orderly)
    (hnone : a.closeScope.held? (.scope id) key = none) : a.closeScope.Gone (.scope id) key := by
  obtain ⟨rest, hactive⟩ := head?_eq_some_iff.1 htop
  refine ⟨id, rfl, ⟨fun j hj => ?_, ?_, fun _ _ => rfl, fun _ _ _ _ => .inl rfl⟩, hnone⟩
  · have hbelow := horder.nested.descending
    rw [hactive, pairwise_cons] at hbelow
    refine .inl (hbelow.1 j ?_)
    have htail := a.symbols.active_closeScope (a.isAwaited id)
    unfold Assembly.closeScope at hj
    rw [htop] at hj
    rwa [htail, hactive] at hj
  · have hthere := ha.reachable.wellNested.active id (mem_of_mem_head? htop)
    exact Nat.lt_of_lt_of_eq hthere (a.symbols.nextScope_closeScope _).symm

/-- A symbol that is no variable stays, or goes away with its scope, or gets the value that its patch
waited for. -/
theorem symbol (h : Happens a b) (ha : Arises a) (horder : a.Orderly) (hs : a.held? slot key = some s)
    (hv : s.kind ≠ .var) : b.held? slot key = some s ∨ b.Gone slot key ∨
      ∃ p v, p ∈ a.pending ∧ a.Gives p slot key v ∧ s.value = none ∧
        b.held? slot key = some { s with value := some v } := by
  have hsame (h : b.symbols.symbolsAt slot = a.symbols.symbolsAt slot) : b.held? slot key = some s := by
    unfold held? at hs ⊢
    rwa [h]
  cases h with
  | stage h he =>
    cases h with
    | turn ht =>
      obtain ⟨s', hs', -, hkept⟩ := ht.table.kept slot key s hs
      exact .inl (hkept hv ▸ hs')
    | opens kind pass => exact .inl (hsame (symbolsAt_enterScope a kind pass slot))
    | ends _ => exact absurd rfl (he _)
    | @closes id htop =>
      by_cases hslot : slot = .scope id
      · subst hslot
        obtain ⟨keep, hclosed⟩ : ∃ keep, a.closeScope.symbols = a.symbols.closeScope keep := ⟨_, rfl⟩
        rcases symbolsAt_closeScope_top htop keep with hkept | hcleared <;> rw [← hclosed] at *
        · exact .inl (hsame hkept)
        · refine .inr (.inl (closes_gone htop ha horder ?_))
          exact congrArg (·.get? key) hcleared
      · refine .inl (hsame (symbolsAt_closeScope fun top ht => ?_))
        rw [htop] at ht
        cases ht
        exact hslot
    | enters hentered => exact .inl (hsame (symbolsAt_enterModule hentered slot))
    | leaves =>
      obtain ⟨_, hleft⟩ := a.symbols.leaveModule_eq
      refine .inl (hsame ?_)
      rw [hleft]
      cases slot <;> rfl
    | deepens depth => exact .inl hs
  | @waits p hp hw => exact .inl (((Noted.ofAsked (.evalAt a p.place p.expr)).held? slot key).trans hs)
  | @givesUp kept rest p hq => exact .inl (((reportWaiting_noted a p).held? slot key).trans hs)
  | @settles b kept rest p o hq hsettles =>
    have hp : p ∈ a.pending := by
      rw [← Array.mem_toList_iff, hq]
      exact mem_append_right _ mem_cons_self
    cases hsettles with
    | refused he _ | failed he =>
      refine .inl (Eq.trans ?_ hs)
      exact Noted.held? (Noted.ofAsked (.ofEvalAt he)) slot key
    | @applied c _ v he happly =>
      have hc : c.held? slot key = some s := ((Noted.ofAsked (.ofEvalAt he)).held? slot key).trans hs
      rcases applyPatch_cases happly with ⟨other, name, hk, ht, rfl⟩ | ⟨_, _, rfl, -⟩ | ⟨_, _, rfl, -⟩
      · by_cases hother : (slot, key) = (other, name)
        · cases hother
          obtain ⟨_, _, s', htarget, hs', -, hblank, -⟩ := horder.aimed.aims p (Array.mem_toList_iff.2 hp) hk
          rw [ht] at htarget
          cases htarget
          cases hs.symm.trans hs'
          rcases c.symbols.symbolsAt_assign slot key v slot key with hsame | ⟨x, hx, hvalued⟩
          · exact .inl (hsame.trans hc)
          · cases hc.symm.trans hx
            exact .inr (.inr ⟨p, v, hp, ⟨hk, ht, by rw [he]⟩, hblank, hvalued⟩)
        · exact .inl ((c.symbols.symbolsAt_assign_other other name v hother).trans hc)
      · exact .inl hc
      · exact .inl hc

theorem isSealed {low high : Nat} (h : Happens a b) (horder : a.Orderly)
    (hsealed : Sealed low high t a.symbols) : Sealed low high t b.symbols := by
  cases h with
  | stage h _ => exact hsealed.stage h horder
  | waits hp hw => exact hsealed.fills (horder.aimed.resolution (.wait hp hw (.refl _))).1
  | settles hq hs => exact hsealed.fills (horder.aimed.resolution (.settle hq hs (.refl _))).1
  | @givesUp _ _ p _ =>
    obtain ⟨used, hu⟩ := (reportWaiting_noted a p).symbols
    refine hsealed.fills ?_
    rw [hu]
    exact .ofSymbols rfl rfl rfl rfl

theorem constant (h : Happens a b) (ha : Arises a) (hp : p ∈ b.pending) (hk : p.kind = .equ) :
    p ∈ a.pending ∨ ∃ label slot, a.Defers label p.expr slot b ∧ p.place = a.place ∧
      p.target = some (slot, upcase label) := by
  cases h with
  | stage h he =>
    cases h with
    | turn ht =>
      obtain ⟨kept, new, henq⟩ := ht.action.enqueued ha
      rw [← Array.mem_toList_iff, henq.pending] at hp
      rcases mem_append.1 hp with hp | hp
      · exact .inl (Array.mem_toList_iff.1 (henq.old.subset hp))
      · rcases henq.constants with hnone | ⟨q, label, slot, rfl, hdefers, htarget, -⟩
        · exact absurd hk (hnone p hp)
        · obtain rfl := mem_singleton.1 hp
          exact .inr ⟨label, slot, hdefers, (henq.waits p hp).1, htarget⟩
    | ends _ => exact absurd rfl (he _)
    | opens | closes | enters | leaves | deepens => exact .inl hp
  | @waits q _ _ => exact .inl ((Asked.evalAt a q.place q.expr).pending ▸ hp)
  | settles hq _ | givesUp hq => exact .inl (mem_pending_of_taken hq hp)

end Happens

theorem Becomes.gone (h : Becomes a b) (ha : Arises a) (horder : a.Orderly)
    (hgone : a.Gone slot key) : b.Gone slot key := by
  obtain ⟨id, rfl, hsealed, hnone⟩ := hgone
  obtain ⟨hb, -, -⟩ := h.invariant (P := fun c => Sealed id (id + 1) a.symbols c.symbols)
    (fun h _ horder hsealed => h.isSealed horder hsealed) ha horder hsealed
  refine ⟨id, rfl, ⟨hb.active, hb.scopes, fun _ _ => rfl, fun _ _ _ _ => .inl rfl⟩, ?_⟩
  have hgains := hb.symbols id (Nat.le_refl _) (Nat.lt_succ_self _) key
  unfold held? at hnone ⊢
  rw [hnone] at hgains
  rcases hgains with hsame | ⟨_, _, hsome, -⟩
  · exact hsame
  · cases hsome

/-! ## Constants that wait -/

namespace Assembly.Defers

theorem happens (h : a.Defers label e slot b) : Happens a b := by
  obtain ⟨hw, c, hd, rfl⟩ := h
  exact .stage (.turn (.awaitEqu hw hd)) nofun

theorem free (h : a.Defers label e slot b) : a.held? slot (upcase label) = none := by
  obtain ⟨-, c, hd, -⟩ := h
  rcases a.define_cases label .equ none with ⟨fault, hc⟩ | ⟨hfree, hc⟩ <;> rw [hc] at hd <;> cases hd
  unfold held?
  simpa [isTaken, NameTable.contains] using hfree

theorem held (h : a.Defers label e slot b) (ha : Arises a) :
    b.held? slot (upcase label) = some ⟨upcase label, .equ, none, a.pos⟩ := by
  obtain ⟨-, c, hd, rfl⟩ := h
  rcases a.define_cases label .equ none with ⟨fault, hc⟩ | ⟨-, hc⟩ <;> rw [hc] at hd <;> cases hd
  have hat := symbolsAt_modifySymbols_labelSlot ha.reachable.wellNested (upcase label)
    (·.insert (upcase label) ⟨upcase label, .equ, none, a.pos⟩)
  exact (congrArg (·.get? (upcase label)) hat).trans (NameTable.get?_insert_self _ _ _)

end Assembly.Defers

theorem defineEqu_defers {c : Assembly} (ha : a.Awaits e) (h : (defineEqu e (some label)).run.run a = (.ok (), c)) :
    ∃ b slot, Asked a b ∧ b.Defers label e slot c := by
  have hasked := Asked.evalAt a a.place e
  have heval : (evalExpr e).run.run a =
      (.ok (.pending (e.pendingNames (a.symbols.env a.place))), (a.evalAt a.place e).2) :=
    Prod.ext (evalAt_pending_iff.2 ⟨ha, rfl⟩) rfl
  rw [show (defineEqu e (some label)).run.run a = _ from Step.run_bind_ok heval] at h
  rcases hd : (a.evalAt a.place e).2.define label .equ none with ⟨fault | slot, b⟩
  · have hfails : (Step.of fun a => a.define label .equ none).run.run (a.evalAt a.place e).2 = (.error fault, b) := hd
    cases (Step.run_bind_error hfails).symm.trans h
  · have hdefines : (Step.of fun a => a.define label .equ none).run.run (a.evalAt a.place e).2 = (.ok slot, b) := hd
    cases (Step.run_bind_ok hdefines).symm.trans h
    exact ⟨_, slot, hasked, hasked.awaits.2 ha, b, hd, rfl⟩

theorem Becomes.symbol (h : Becomes a b) (ha : Arises a) (horder : a.Orderly)
    (hs : a.held? slot key = some s) (hv : s.kind ≠ .var) : b.held? slot key = some s ∨ b.Gone slot key ∨
      ∃ p d v, p ∈ a.pending ∧ Becomes a d ∧ d.Gives p slot key v ∧ Becomes d b ∧ s.value = none ∧
        b.held? slot key = some { s with value := some v } := by
  induction h using Relation.ReflTransGen.head_induction_on generalizing s with
  | refl => exact .inl hs
  | @head a c h hrest ih =>
    obtain ⟨_, hcourse⟩ := h.acts
    have hc := ha.course hcourse
    have hcorder := h.orderly ha horder
    rcases h.symbol ha horder hs hv with hsame | hgone | ⟨p, v, hp, hfills, hblank, hvalued⟩
    · rcases ih hc hcorder hsame hv with hsame | hgone | ⟨p, d, v, hp, hd, hfills, hb⟩
      · exact .inl hsame
      · exact .inr (.inl hgone)
      · refine .inr (.inr ⟨p, d, v, ?_, .head h hd, hfills, hb⟩)
        -- A patch that is new would aim at a name that was free.
        rcases h.constant ha hp hfills.1 with hp | ⟨label, other, hdefers, -, htarget⟩
        · exact hp
        · cases hfills.2.1.symm.trans htarget
          cases hs.symm.trans hdefers.free
    · exact .inr (.inl (Becomes.gone hrest hc hcorder hgone))
    · rcases ih hc hcorder hvalued hv with hsame | hgone | ⟨_, _, _, _, _, _, _, hnone, _⟩
      · exact .inr (.inr ⟨p, a, v, hp, .refl, hfills, .head h hrest, hblank, hsame⟩)
      · exact .inr (.inl hgone)
      · cases hnone

/-! ## Where constants come from -/

/-- Each patch for a constant was made where the constant was entered, with the expression of its line. -/
def Assembly.Founded (start a : Assembly) : Prop :=
  ∀ p ∈ a.pending, p.kind = .equ → ∃ o label slot o', Becomes start o ∧ o.Defers label p.expr slot o' ∧
    Becomes o' a ∧ p.place = o.place ∧ p.target = some (slot, upcase label)

theorem Happens.founded {start : Assembly} (h : Happens a b) (ha : Arises a)
    (hstart : Becomes start a) (hfounded : start.Founded a) : start.Founded b := by
  intro p hp hk
  rcases h.constant ha hp hk with hp | ⟨label, slot, hdefers, hplace, htarget⟩
  · obtain ⟨o, label, slot, o', ho, hdefers, ho', hplace, htarget⟩ := hfounded p hp hk
    exact ⟨o, label, slot, o', ho, hdefers, .tail ho' h, hplace, htarget⟩
  · exact ⟨a, label, slot, b, hstart, hdefers, .refl, hplace, htarget⟩

theorem Becomes.founded {setup : Setup} (h : Becomes (.new setup) a) : (Assembly.new setup).Founded a := by
  obtain ⟨⟨-, hfounded⟩, -⟩ := h.invariant
    (P := fun a => Becomes (.new setup) a ∧ (Assembly.new setup).Founded a)
    (fun h ha _ hP => ⟨.tail hP.1 h, h.founded ha hP.1 hP.2⟩) (.new setup) (.new setup)
    ⟨.refl, fun p hp => absurd hp (Array.not_mem_empty p)⟩
  exact hfounded

/-! ## Single assignment -/

/-- A constant that had no value in `a` has one in `b`: that of the expression of its own line, at the place
of that line. -/
def Assembly.ConstantFilled (start a b : Assembly) (slot : Slot) (key : String) (s : Symbol) : Prop :=
  ∃ o label e o' d v, Becomes start o ∧ o.Defers label e slot o' ∧ Becomes o' a ∧
    key = upcase label ∧ s = ⟨key, .equ, none, o.pos⟩ ∧
    Becomes a d ∧ (d.evalAt o.place e).1 = .ok (.ready v) ∧ Becomes d b ∧
    b.held? slot key = some { s with value := some v }

theorem Becomes.deferred {o o' : Assembly} (ho : Arises o) (horder : o.Orderly) (hdefers : o.Defers label e slot o')
    (h : Becomes o' a) (hs : a.held? slot (upcase label) = some s) (hblank : s.value = none) :
    s = ⟨upcase label, .equ, none, o.pos⟩ := by
  obtain ⟨_, hcourse⟩ := hdefers.happens.acts
  rcases h.symbol (ho.course hcourse) (hdefers.happens.orderly ho horder) (hdefers.held ho) (by simp) with
    hsame | ⟨_, -, -, hnone⟩ | ⟨_, _, v, _, _, _, _, _, hvalued⟩
  · exact Option.some.inj (hs.symm.trans hsame)
  · cases hs.symm.trans hnone
  · cases hs.symm.trans hvalued
    cases hblank

/-- Along every run a symbol that is no variable stays what it is, with its value, as long as its place keeps
it; a name that is gone does not come back to the place. The one thing that may change is a constant whose
line had to let it wait: it gets the value of the expression of that line, and from then on it stays, too. -/
theorem symbols_assigned_once (setup : Setup) (lines : List SourceLine) :
    Becomes (.new setup) ((assembleLines lines).run (.new setup)).2 ∧
    (∀ a, Becomes (.new setup) a → ∀ (outer : Option Nat) (n : Nat) (body : List SourceLine),
      Becomes a ((walkLines (outer.map walkDepth) n body).run a).2) ∧
    (∀ a b, Becomes (.new setup) a → Becomes a b → ∀ slot key s, a.held? slot key = some s → s.kind ≠ .var →
      b.held? slot key = some s ∨ (∀ c, Becomes b c → c.held? slot key = none) ∨
        (Assembly.new setup).ConstantFilled a b slot key s) ∧
    ∀ a c label e, a.Awaits e → (runPragma (some label) (.equ e)).run.run a = (.ok (), c) →
      ∃ b slot, Asked a b ∧ b.Defers label e slot c := by
  have hstate {a : Assembly} (ha : Becomes (.new setup) a) : Arises a ∧ a.Orderly :=
    (ha.invariant (P := fun _ => True) (fun _ _ _ _ => trivial) (.new setup) (.new setup) trivial).2
  refine ⟨?_, fun a ha outer n body => ?_, fun a b ha hab slot key s hs hv => ?_,
    fun a c label e ha h => defineEqu_defers ha h⟩
  · obtain ⟨es, hwalk⟩ := walked_history setup lines
    rw [assembleLines_run]
    exact hwalk.becomes.trans (resolveAll_becomes _)
  · obtain ⟨es, hwalk, -⟩ := (walkLines_depth_follows outer n body a).history (hstate ha).1.reachable
    exact hwalk.becomes
  obtain ⟨harises, horder⟩ := hstate ha
  rcases hab.symbol harises horder hs hv with hsame | hgone | ⟨p, d, v, hp, hd, hfills, hb, hblank, hvalued⟩
  · exact .inl hsame
  · refine .inr (.inl fun c hc => ?_)
    obtain ⟨hbarises, hborder⟩ := hstate (ha.trans hab)
    obtain ⟨_, -, -, hnone⟩ := Becomes.gone hc hbarises hborder hgone
    exact hnone
  · obtain ⟨hk, ht, hvalue⟩ := hfills
    obtain ⟨o, label, other, o', ho, hdefers, ho', hplace, htarget⟩ := ha.founded p hp hk
    cases ht.symm.trans htarget
    rw [hplace] at hvalue
    obtain ⟨hoarises, hoorder⟩ := hstate ho
    have hentered := Becomes.deferred hoarises hoorder hdefers ho' hs hblank
    exact .inr (.inr ⟨o, label, p.expr, o', d, v, ho, hdefers, ho', rfl, hentered, hd, hvalue, hb, hvalued⟩)

/-- `X` is declared as `Y`, -/
def waitingLine : SourceLine := ⟨⟨0, 0⟩, some "x", some (.pragma (.equ (.symbol ⟨["Y"], false⟩))), none⟩

/-- which is declared behind it. -/
def awaitedLine : SourceLine := ⟨⟨0, 1⟩, some "y", some (.pragma (.equ (.int 5))), none⟩

/-- Behind its line `X` has no value, in the end it has that of `Y`, and it got it from its own line. -/
theorem symbols_assigned_once_waiting :
    let final := ((assembleLines [waitingLine, awaitedLine]).run (.new {})).2
    ∃ a s, Becomes (.new {}) a ∧ Becomes a final ∧ a.held? (.module 0) "X" = some s ∧ s.kind ≠ .var ∧
      ((final.held? (.module 0) "X").bind (·.value)).bind (·.integer?) = some 5 ∧
      (Assembly.new {}).ConstantFilled a final (.module 0) "X" s := by
  intro final
  let expand := (some 31).map walkDepth
  obtain ⟨a, ha⟩ : ∃ x, x = ((walkLines expand 1 [waitingLine]).run (.new {})).2 := ⟨_, rfl⟩
  obtain ⟨-, hwalks, honce, -⟩ := symbols_assigned_once {} [waitingLine, awaitedLine]
  have hbefore : Becomes (.new {}) a := ha ▸ hwalks (.new {}) .refl (some 31) 1 [waitingLine]
  have hafter : Becomes a final := by
    have hwalk : ((walkProgram [waitingLine, awaitedLine]).run (.new {})).2 =
        ((walkLines expand 1 [awaitedLine]).run a).2 := by
      rw [ha, walkProgram_run (show ({} : Setup).options.maxMacroDepth = 31 + 1 from rfl)]
      rfl
    have hrest : Becomes a ((walkLines expand 1 [awaitedLine]).run a).2 := hwalks a hbefore (some 31) 1 [awaitedLine]
    rw [show final = _ from assembleLines_run _ _, hwalk]
    exact (hrest.trans (flushLabel_calm _).history.becomes).trans (resolveAll_becomes _)
  have hheld : (a.held? (.module 0) "X").map (·.kind) = some .equ := by
    rw [ha]
    decide +kernel
  obtain ⟨s, hs, hkind⟩ := Option.map_eq_some_iff.1 hheld
  have hvalue : ((final.held? (.module 0) "X").bind (·.value)).bind (·.integer?) = some 5 := by
    decide +kernel
  refine ⟨a, s, hbefore, hafter, hs, by rw [hkind]; decide, hvalue, ?_⟩
  rcases honce a final hbefore hafter (.module 0) "X" s hs (by rw [hkind]; decide) with hsame | hnone | hfilled
  · have hblank : (a.held? (.module 0) "X").bind (·.value) = none := by
      rw [← Option.isNone_iff_eq_none, ha]
      decide +kernel
    rw [hsame, ← hs, hblank] at hvalue
    cases hvalue
  · rw [hnone final .refl] at hvalue
    cases hvalue
  · exact hfilled

end SpectrumAsm
