/-
Constants that wait, and the scopes that patches were made in.

A patch for a constant aims at one that has no value so far, and no other patch aims at it. If the constant
belongs to a scope, the patch was made in that scope. This is why resolving patches only ever adds values
(`SymbolTable.Fills`).
-/
import SpectrumAsm.Proofs.PatchFates
import SpectrumAsm.Proofs.Places

namespace SpectrumAsm

open List Text SymbolTable

variable {a b : Assembly} {kept : List Patch} {p : Patch} {slot : Slot} {key : String}
  {log : List (Patch × Settlement)} {t : SymbolTable} {id : Nat} {xs : List Extent}

/-! ## Values that are filled in -/

/-- `u` is `t` with values for symbols that had none. -/
structure SymbolTable.Fills (t u : SymbolTable) : Prop extends t.SameFrames u where
  symbols : ∀ slot key, Gains ((t.symbolsAt slot).get? key) ((u.symbolsAt slot).get? key)

namespace SymbolTable.Fills

variable {u v : SymbolTable}

theorem ofSymbols (hactive : u.active = t.active) (hcurrent : u.current = t.current)
    (hscopes : u.scopes = t.scopes) (hmodules : u.modules = t.modules) : Fills t u where
  toSameFrames := ⟨hactive, hcurrent, by rw [hscopes], by rw [hmodules]⟩
  symbols slot key := by
    cases slot <;> simp only [symbolsAt, hscopes, hmodules] <;> exact .inl rfl

theorem refl (t : SymbolTable) : Fills t t := ofSymbols rfl rfl rfl rfl

theorem trans (h : Fills t u) (h' : Fills u v) : Fills t v :=
  ⟨h.toSameFrames.trans h'.toSameFrames, fun slot key => (h.symbols slot key).trans (h'.symbols slot key)⟩

theorem assign {s : Symbol} (hs : (t.symbolsAt slot).get? key = some s) (hblank : s.value = none)
    (value : Value) : Fills t (t.assign slot key value) where
  toSameFrames := t.sameFrames_modifySymbols slot _
  symbols other name := by
    by_cases h : (other, name) = (slot, key)
    · cases h
      rcases t.symbolsAt_assign slot key value slot key with hsame | ⟨x, hx, hvalued⟩
      · exact .inl hsame
      · rw [hs] at hx
        cases hx
        exact .inr ⟨s, value, hs, hblank, hvalued⟩
    · exact .inl (t.symbolsAt_assign_other slot key value h)

section
variable (h : Fills t u)
include h

theorem frame (id : Nat) : u.scopes[id]?.map Scope.frame = t.scopes[id]?.map Scope.frame := by
  rw [← Array.getElem?_map, ← Array.getElem?_map, h.frames]

theorem parent? (id : Nat) : u.parent? id = t.parent? id := by
  rw [parent?_frame, parent?_frame, h.frame]

theorem lookup (ref : SymbolRef) (scope : Option Nat) (module : Nat) :
    Gains (t.lookup ref scope module) (u.lookup ref scope module) :=
  lookup_related (fun _ _ hg => hg.found) (.inl rfl) h.symbols h.modules h.frames ref scope module

theorem symbol {place : Place} {ref : SymbolRef} {v : Value} (hv : (t.env place).symbol ref = some v) :
    (u.env place).symbol ref = some v :=
  (h.lookup ref place.scope place.module).value hv

theorem counter (place : Place) : (u.env place).counter = (t.env place).counter :=
  loopCounter?_eq fun id _ => h.frame id

end

end SymbolTable.Fills

/-! ## Patches for constants -/

/-- The constant that a patch will give its value to is there and has none. If it belongs to a scope, the
patch was made there. -/
def Patch.Aims (p : Patch) (t : SymbolTable) : Prop :=
  ∃ slot key s, p.target = some (slot, key) ∧ (t.symbolsAt slot).get? key = some s ∧ s.kind = .equ ∧
    s.value = none ∧ ∀ id, slot = .scope id → p.scope = some id

/-- Each patch for a constant has a constant of its own. -/
structure Aimed (t : SymbolTable) (queue : List Patch) : Prop where
  aims : ∀ p ∈ queue, p.kind = .equ → p.Aims t
  apart : queue.Pairwise fun p q => p.kind = .equ → q.kind = .equ → p.target ≠ q.target

namespace Aimed

variable {u : SymbolTable} {queue : List Patch}

theorem sublist (h : Aimed t queue) (hs : kept.Sublist queue) : Aimed t kept :=
  ⟨fun p hp => h.aims p (hs.subset hp), h.apart.sublist hs⟩

theorem congr (h : Aimed t queue) (hsame : ∀ p ∈ queue, p.kind = .equ → ∀ slot key s,
      p.target = some (slot, key) → (t.symbolsAt slot).get? key = some s → s.kind = .equ →
      (∀ id, slot = .scope id → p.scope = some id) → (u.symbolsAt slot).get? key = some s) : Aimed u queue := by
  refine ⟨fun p hp hk => ?_, h.apart⟩
  obtain ⟨slot, key, s, ht, hs, hkind, hblank, hscope⟩ := h.aims p hp hk
  exact ⟨slot, key, s, ht, hsame p hp hk slot key s ht hs hkind hscope, hkind, hblank, hscope⟩

theorem asked (h : Aimed a.symbols queue) (hab : Asked a b) : a.symbols.Fills b.symbols ∧ Aimed b.symbols queue := by
  obtain ⟨_, used, rfl⟩ := hab
  refine ⟨.ofSymbols rfl rfl rfl rfl, h.congr fun _ _ _ slot _ _ _ hs _ _ => ?_⟩
  cases slot <;> exact hs

theorem settles {rest : List Patch} {o : Settlement} (h : Aimed a.symbols (kept ++ p :: rest))
    (hs : Settles a p o b) : a.symbols.Fills b.symbols ∧ Aimed b.symbols (kept ++ rest) := by
  have hrest : (kept ++ rest).Sublist (kept ++ p :: rest) :=
    (Sublist.refl kept).append (sublist_cons_self p rest)
  cases hs with
  | @applied c _ v he ha =>
    obtain ⟨hfills, haimed⟩ := h.asked (.ofEvalAt he)
    rcases applyPatch_cases ha with ⟨slot, key, hk, ht, rfl⟩ | ⟨_, _, rfl, -⟩ | ⟨_, _, rfl, -⟩
    · obtain ⟨_, _, s, htarget, hs, -, hblank, -⟩ := haimed.aims p (mem_append_right _ mem_cons_self) hk
      rw [ht] at htarget
      cases htarget
      refine ⟨hfills.trans (.assign hs hblank v), (haimed.sublist hrest).congr ?_⟩
      intro q hq hqk other name x hqt hx _ _
      rw [← hx]
      refine c.symbols.symbolsAt_assign_other slot key v fun he => ?_
      -- No two patches wait for the same constant.
      have hsame : q.target = p.target := by rw [hqt, ht, he]
      have happart := haimed.apart
      rw [pairwise_append, pairwise_cons] at happart
      obtain ⟨-, ⟨hafter, -⟩, hbefore⟩ := happart
      rcases mem_append.1 hq with hq | hq
      · exact hbefore q hq p mem_cons_self hqk hk hsame
      · exact hafter q hq hk hqk hsame.symm
    · exact ⟨hfills, haimed.sublist hrest⟩
    · exact ⟨hfills, haimed.sublist hrest⟩
  | refused he _ | failed he =>
    obtain ⟨hfills, haimed⟩ := (h.sublist hrest).asked (.ofEvalAt he)
    exact ⟨hfills, haimed⟩

theorem resolution (h : Aimed a.symbols a.pending.toList) (hr : Resolution a log b) :
    a.symbols.Fills b.symbols ∧ Aimed b.symbols b.pending.toList := by
  induction hr with
  | refl a => exact ⟨.refl _, h⟩
  | @wait a b log p _ _ _ ih =>
    obtain ⟨hfills, haimed⟩ := h.asked (.evalAt a p.place p.expr)
    rw [← (Asked.evalAt a p.place p.expr).pending] at haimed
    obtain ⟨hrest, hfinal⟩ := ih haimed
    exact ⟨hfills.trans hrest, hfinal⟩
  | settle hq hs _ ih =>
    rw [hq] at h
    obtain ⟨hfills, haimed⟩ := h.settles hs
    obtain ⟨hrest, hfinal⟩ := ih haimed
    exact ⟨hfills.trans hrest, hfinal⟩

end Aimed

/-! ## Patches that are new -/

theorem SymbolTable.top?_of_labelSlot (h : t.labelSlot key = .scope id) : t.top? = some id := by
  unfold labelSlot at h
  split at h
  · cases h
  · next top htop =>
    split at h
    · split at h
      · cases h
      · cases h
        exact htop
    · cases h
      exact htop

theorem Patch.waits_of_place (hplace : p.place = a.place) (h : a.Awaits p.expr) : p.Waits a := by
  unfold Patch.Waits
  rw [hplace]
  exact h

/-- A constant is entered without a value and waits for that of its expression. -/
def Assembly.Defers (a : Assembly) (label : String) (e : Expr) (slot : Slot) (b : Assembly) : Prop :=
  a.Awaits e ∧ ∃ c, a.define label .equ none = (.ok slot, c) ∧
    b = c.addPatch .equ c.lastSegment 0 e (some (slot, upcase label))

/-- What is left of the queue of `a`, and the patches that are new in `b`. These wait at the place of the
line; one for a constant comes alone, and its constant is new. -/
structure Enqueued (a b : Assembly) (kept new : List Patch) : Prop where
  old : kept.Sublist a.pending.toList
  pending : b.pending.toList = kept ++ new
  waits : ∀ p ∈ new, p.place = a.place ∧ p.Waits a
  constants : (∀ p ∈ new, p.kind ≠ .equ) ∨
    ∃ p label slot, new = [p] ∧ a.Defers label p.expr slot b ∧ p.target = some (slot, upcase label) ∧
      p.Aims b.symbols ∧ ∀ q : Patch, q.Aims a.symbols → q.target ≠ p.target

namespace Enqueued

theorem thinned (h : kept.Sublist a.pending.toList) (hb : b.pending.toList = kept) : Enqueued a b kept [] :=
  ⟨h, by rw [hb, append_nil], nofun, .inl nofun⟩

theorem holes {code : Code} (hc : code.Built a) (hk : kept.Sublist a.pending.toList)
    {f : PatchKind × Nat × Expr → Patch} (hb : b.pending.toList = kept ++ code.holes.map f)
    (hf : ∀ hole ∈ code.holes, (f hole).place = a.place ∧ (f hole).expr = hole.2.2 ∧
      (f hole).kind.span = hole.1.span) : Enqueued a b kept (code.holes.map f) := by
  refine ⟨hk, hb, fun p hp => ?_, .inl fun p hp hkind => ?_⟩ <;>
    obtain ⟨hole, hm, rfl⟩ := mem_map.1 hp <;> obtain ⟨hplace, hexpr, hspan⟩ := hf hole hm
  · exact ⟨hplace, Patch.waits_of_place hplace (hexpr ▸ (hc.hole hm).awaits)⟩
  · have hpos := (hc.hole hm).pos
    rw [← hspan, hkind] at hpos
    cases hpos

end Enqueued

/-- An action drops patches, and puts new ones behind those that are left. -/
theorem Action.enqueued (h : Action a xs b) (ha : Arises a) : ∃ kept new, Enqueued a b kept new := by
  cases h with
  | idle hidle => exact ⟨_, _, .thinned (.refl _) (by rw [hidle.pending])⟩
  | @emit code hc _ =>
    rcases he : a.emit code with ⟨fault | _, b⟩
    · rw [Assembly.emit_error he]
      exact ⟨_, _, .thinned (.refl _) (by rw [(Idle.openSegment a).pending])⟩
    · exact ⟨_, _, .holes hc (.refl _) (f := a.patchFor (a.segmentSize a.lastSegment))
        (by rw [(hc.emitted he).pending]; simp) fun _ _ => ⟨rfl, rfl, rfl⟩⟩
  | awaitEntry hk hw =>
    refine ⟨a.pending.toList, [_], .refl _, Array.toList_push .., fun p hp => ?_, .inl fun p hp he => ?_⟩ <;>
      obtain rfl := mem_singleton.1 hp
    · exact ⟨rfl, hw⟩
    · rcases hk with rfl | rfl <;> cases he
  | @awaitEqu b e label slot hw hd =>
    have hdefers : a.Defers label e slot _ := ⟨hw, b, hd, rfl⟩
    rcases a.define_cases label .equ none with ⟨fault, hc⟩ | ⟨hfree, hc⟩ <;> rw [hc] at hd <;> cases hd
    have hlocal : a.symbols.Local (a.symbols.addSymbol (a.symbols.labelSlot (upcase label))
        ⟨upcase label, .equ, none, a.pos⟩) := .add (a.symbols.labelSlot_mem_varSlots _) hfree
    refine ⟨a.pending.toList, [_], .refl _, Array.toList_push .., fun p hp => ?_,
      .inr ⟨_, label, _, rfl, hdefers, rfl, ?_, ?_⟩⟩
    · obtain rfl := mem_singleton.1 hp
      have hplace := congrArg₂ (Place.mk · · a.origin) hlocal.top? hlocal.current
      exact ⟨hplace, Patch.waits_of_place hplace hw⟩
    · have hat := symbolsAt_modifySymbols_labelSlot ha.reachable.wellNested (upcase label)
        (·.insert (upcase label) ⟨upcase label, .equ, none, a.pos⟩)
      refine ⟨_, _, ⟨upcase label, .equ, none, a.pos⟩, rfl, ?_, rfl, rfl, fun id hid => ?_⟩
      · exact (congrArg (·.get? (upcase label)) hat).trans (NameTable.get?_insert_self _ _ _)
      · exact hlocal.top?.trans (top?_of_labelSlot hid)
    · rintro q ⟨slot, key, s, ht, hs, -⟩ he
      rw [ht] at he
      cases he
      simp [isTaken, NameTable.contains, hs] at hfree
  | @override _ c i code hi hc hd he hm =>
    have hover := (hc.emitted he).accepted (ha.reachable.instanceInPlace _ hi) hm
    refine ⟨_, _, .holes hc filter_sublist
      (f := fun hole => a.patchFor (i.start + i.cursor) (hole.1.inField, hole.2))
      (by rw [hover.pending, Array.toList_append, Array.toList_filter]) fun hole _ => ⟨rfl, rfl, ?_⟩⟩
    exact hole.1.span_inField
  | @settle b kept rest p o hq _ | @giveUp kept rest p hq =>
    exact ⟨kept ++ rest, [], .thinned (taken_sublist hq) (by simp)⟩

/-! ## Order -/

namespace SymbolTable

theorem symbolsAt_enterScope (a : Assembly) (kind : ScopeKind) (pass : Int64) (slot : Slot) :
    (a.enterScope kind pass).symbols.symbolsAt slot = a.symbols.symbolsAt slot :=
  (symbolsAt_modifyTop (f := fun s => { s with counter := pass }) (fun _ => rfl) slot).trans
    (a.symbols.symbolsAt_openScope kind slot)

end SymbolTable

theorem scopes_closeScope_awaited (hp : p ∈ a.pending) (htop : a.symbols.top? = some id)
    (hin : a.symbols.encloses p.scope id = true) : a.closeScope.symbols.scopes = a.symbols.scopes := by
  have hawaited : a.isAwaited id = true := Array.any_eq_true'.2 ⟨p, hp, hin⟩
  unfold Assembly.closeScope
  rw [htop]
  dsimp only
  rw [hawaited]
  unfold closeScope
  split <;> rfl

theorem symbolsAt_closeScope_awaited (hp : p ∈ a.pending) (h : ∀ id, slot = .scope id → p.scope = some id) :
    a.closeScope.symbols.symbolsAt slot = a.symbols.symbolsAt slot := by
  by_cases hslot : ∀ id, a.symbols.top? = some id → slot ≠ .scope id
  · exact symbolsAt_closeScope hslot
  · simp only [not_forall, not_not] at hslot
    obtain ⟨id, htop, rfl⟩ := hslot
    have hin : a.symbols.encloses p.scope id = true := by
      rw [encloses, h id rfl]
      exact contains_iff_mem.2 (a.symbols.mem_chain_self id)
    simp [symbolsAt, scopes_closeScope_awaited hp htop hin]

/-- What holds of the queue and the scopes in every state of a history. -/
structure Assembly.Orderly (a : Assembly) : Prop where
  nested : a.symbols.WellNested
  /-- the scopes patches were made in are there -/
  scopes : ∀ p ∈ a.pending, ∀ id, p.scope = some id → id < a.symbols.nextScope
  aimed : Aimed a.symbols a.pending.toList

namespace Assembly.Orderly

variable {es : List Event}

theorem same (h : a.Orderly) (hnested : b.symbols.WellNested) (hp : b.pending = a.pending)
    (hs : ∀ slot, b.symbols.symbolsAt slot = a.symbols.symbolsAt slot)
    (hn : a.symbols.nextScope ≤ b.symbols.nextScope) : b.Orderly := by
  refine ⟨hnested, fun p hm id hid => ?_, ?_⟩
  · exact Nat.lt_of_lt_of_le (h.scopes p (hp ▸ hm) id hid) hn
  · rw [hp]
    exact h.aimed.congr fun _ _ _ slot _ _ _ hx _ _ => (hs slot).symm ▸ hx

theorem turn (h : a.Orderly) (ht : Turn a xs b) (ha : Arises a) : b.Orderly := by
  obtain ⟨kept, new, henq⟩ := ht.action.enqueued ha
  refine ⟨(ha.course (.single ht.action)).reachable.wellNested, fun p hp id hid => ?_, ?_⟩
  · rw [ht.table.nextScope]
    rw [← Array.mem_toList_iff, henq.pending] at hp
    rcases mem_append.1 hp with hp | hp
    · exact h.scopes p (Array.mem_toList_iff.1 (henq.old.subset hp)) id hid
    · have hplace : p.scope = a.symbols.top? := congrArg Place.scope (henq.waits p hp).1
      rw [hplace] at hid
      exact h.nested.active id (mem_of_mem_head? hid)
  · have hkept : Aimed b.symbols kept := by
      refine (h.aimed.sublist henq.old).congr fun p _ _ slot key s _ hs hkind _ => ?_
      obtain ⟨s', hs', -, hsame⟩ := ht.table.kept slot key s hs
      rw [hs', hsame (by rw [hkind]; decide)]
    rw [henq.pending]
    rcases henq.constants with hnone | ⟨p, _, _, rfl, -, -, haims, hother⟩
    · refine ⟨fun p hp hk => ?_, pairwise_append.2 ⟨hkept.apart, ?_, ?_⟩⟩
      · rcases mem_append.1 hp with hp | hp
        · exact hkept.aims p hp hk
        · exact absurd hk (hnone p hp)
      · exact pairwise_of_forall_mem_list fun p hp _ _ hk => absurd hk (hnone p hp)
      · exact fun p _ q hq _ hk => absurd hk (hnone q hq)
    · refine ⟨fun q hq hk => ?_, pairwise_append.2 ⟨hkept.apart, pairwise_singleton _ _, ?_⟩⟩
      · rcases mem_append.1 hq with hq | hq
        · exact hkept.aims q hq hk
        · obtain rfl := mem_singleton.1 hq
          exact haims
      · intro q hq r hr hk _
        obtain rfl := mem_singleton.1 hr
        exact hother q (h.aimed.aims q (henq.old.subset hq) hk)

theorem resolution (h : a.Orderly) (hr : Resolution a log b) : b.Orderly := by
  obtain ⟨hfills, haimed⟩ := h.aimed.resolution hr
  refine ⟨⟨h.nested.ofFrame hfills.modules (hfills.current ▸ h.nested.current),
    h.nested.ofParents hfills.parent? hfills.nextScope hfills.active⟩, fun p hp id hid => ?_, haimed⟩
  have hold : p ∈ a.pending := by
    rw [← Array.mem_toList_iff]
    exact hr.perm.subset (mem_append_right _ (Array.mem_toList_iff.2 hp))
  rw [hfills.nextScope]
  exact h.scopes p hold id hid

theorem stage (h : a.Orderly) (hs : Stage a es b) (ha : Arises a) : b.Orderly := by
  have hnested := (ha.course hs.course).reachable.wellNested
  cases hs with
  | turn ht => exact h.turn ht ha
  | opens kind pass =>
    refine h.same hnested rfl (symbolsAt_enterScope a kind pass) ?_
    rw [nextScope_enterScope]
    exact Nat.le_succ _
  | @ends id _ =>
    obtain ⟨log, hr, -⟩ := sweeps_resolution (some id) a.pending.size a
    exact h.resolution hr
  | closes _ =>
    refine ⟨hnested, fun p hp id hid => ?_, ?_⟩
    · exact Nat.lt_of_lt_of_eq (h.scopes p hp id hid) (a.symbols.nextScope_closeScope _).symm
    · refine h.aimed.congr fun p hp _ slot _ _ _ hs _ hscope => ?_
      rwa [symbolsAt_closeScope_awaited (Array.mem_toList_iff.1 hp) hscope]
  | @enters name t he =>
    exact h.same hnested rfl (symbolsAt_enterModule he)
      (Nat.le_of_eq (nextScope_enterModule he).symm)
  | leaves =>
    obtain ⟨_, hleft⟩ := a.symbols.leaveModule_eq
    rw [hleft] at hnested ⊢
    exact h.same hnested rfl (fun slot => by cases slot <;> rfl) (Nat.le_refl _)
  | deepens depth => exact h.same hnested rfl (fun _ => rfl) (Nat.le_refl _)

end Assembly.Orderly

end SpectrumAsm
