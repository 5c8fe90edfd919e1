/-
The end of a scope.

When a scope ends, the patches made inside it are tried, and nothing changes but the bytes and constants that
these are for (`Assembly.Confined`). Its symbols are kept as long as a patch inside waits, so a patch sees
what it saw before (`History.waiting_sees`).
-/
import SpectrumAsm.Proofs.Scoping

namespace SpectrumAsm

open List SymbolTable

variable {a b : Assembly} {p : Patch}

/-! ## Patches of a scope -/

instance (p : Patch) (a : Assembly) : Decidable (p.Waits a) := inferInstanceAs (Decidable (_ ∧ _))

theorem Patch.not_waits_learned (h : Learned a b) (hp : ¬ p.Waits a) : ¬ p.Waits b := by
  intro hw
  have hplain := hw.1
  rw [waits_iff hplain, not_not] at hp
  exact (waits_iff hplain).1 hw (unresolved_learned h hp)

namespace Resolution

variable {log : List (Patch × Settlement)}

theorem not_waits (h : Resolution a log b) : ∀ entry ∈ log, ¬ entry.1.Waits b := by
  induction h with
  | refl a => exact fun entry hm => absurd hm not_mem_nil
  | wait _ _ _ ih => exact ih
  | settle _ hs hrest ih =>
    intro entry hm
    rcases mem_cons.1 hm with rfl | hm
    · exact Patch.not_waits_learned (IsTrans.trans _ _ _ (Learned.settling.settles hs) hrest.learned) hs.not_waits
    · exact ih entry hm

theorem queue (h : Resolution a log b) {keep : Patch → Bool} (hkept : ∀ p ∈ b.pending, keep p = true)
    (hsettled : ∀ entry ∈ log, keep entry.1 = false) : b.pending.toList = a.pending.toList.filter keep := by
  induction h with
  | refl a => exact (filter_eq_self.2 fun p hp => hkept p (Array.mem_toList_iff.1 hp)).symm
  | @wait a b log p _ _ _ ih => rw [ih hkept hsettled, (Asked.evalAt a p.place p.expr).pending]
  | @settle a b c log kept rest p o hq _ _ ih =>
    have hp : keep p = false := hsettled (p, o) mem_cons_self
    rw [ih hkept fun entry hm => hsettled entry (mem_cons_of_mem _ hm), hq]
    simp [hp]

theorem byteAt (h : Resolution a log b) {k i : Nat} (hcov : ∀ entry ∈ log, ¬ entry.1.extent.Covers k i) :
    b.byteAt k i = a.byteAt k i := by
  induction h with
  | refl a => rfl
  | @wait a _ _ p _ _ _ ih =>
    rw [ih hcov]
    exact Assembly.byteAt_congr (Asked.evalAt a p.place p.expr).segments k i
  | settle _ hs _ ih =>
    rw [ih fun entry hm => hcov entry (mem_cons_of_mem _ hm)]
    exact hs.byteAt (hcov _ mem_cons_self)

end Resolution

theorem Asked.symbolsAt (h : Asked a b) (slot : Slot) : b.symbols.symbolsAt slot = a.symbols.symbolsAt slot := by
  obtain ⟨_, used, rfl⟩ := h
  cases slot <;> rfl

theorem Settles.symbol {o : Settlement} (h : Settles a p o b) {slot : Slot} {key : String}
    (hother : p.kind = .equ → p.target ≠ some (slot, key)) :
    (b.symbols.symbolsAt slot).get? key = (a.symbols.symbolsAt slot).get? key := by
  cases h with
  | @applied c _ v he ha =>
    rw [← (Asked.ofEvalAt he).symbolsAt]
    rcases applyPatch_cases ha with ⟨slot', key', hk, ht, rfl⟩ | ⟨_, _, rfl, -⟩ | ⟨_, _, rfl, -⟩
    · refine c.symbols.symbolsAt_assign_other slot' key' v fun hsame => hother hk ?_
      rw [ht, hsame]
    · rfl
    · rfl
  | refused he _ | failed he => exact congrArg (·.get? key) ((Asked.ofEvalAt he).symbolsAt slot)

theorem Resolution.symbol {log : List (Patch × Settlement)} (h : Resolution a log b) {slot : Slot}
    {key : String} (hother : ∀ entry ∈ log, entry.1.kind = .equ → entry.1.target ≠ some (slot, key)) :
    (b.symbols.symbolsAt slot).get? key = (a.symbols.symbolsAt slot).get? key := by
  induction h with
  | refl a => rfl
  | @wait a _ _ p _ _ _ ih => rw [ih hother, (Asked.evalAt a p.place p.expr).symbolsAt]
  | settle _ hs _ ih =>
    rw [← hs.symbol (hother _ mem_cons_self)]
    exact ih fun entry hm => hother entry (mem_cons_of_mem _ hm)

/-- `b` is `a` after the patches of scope `id` were tried. -/
structure Assembly.Confined (a : Assembly) (id : Nat) (b : Assembly) : Prop where
  /-- the patches of other scopes wait as before, and those of the scope that still have to -/
  queue : b.pending.toList = a.pending.toList.filter fun p => !a.symbols.encloses p.scope id || decide (p.Waits b)
  bytes : ∀ k i, (∀ p ∈ a.pending, a.symbols.encloses p.scope id = true → ¬ p.extent.Covers k i) →
    b.byteAt k i = a.byteAt k i
  symbols : ∀ slot key, (∀ p ∈ a.pending, a.symbols.encloses p.scope id = true → p.kind = .equ →
    p.target ≠ some (slot, key)) → (b.symbols.symbolsAt slot).get? key = (a.symbols.symbolsAt slot).get? key
  /-- no scope or module changes in anything but its symbols -/
  scopes : b.symbols.scopes.map Scope.frame = a.symbols.scopes.map Scope.frame
  modules : b.symbols.modules.map Module.frame = a.symbols.modules.map Module.frame
  /-- nothing is reported as missing -/
  reports : ∃ more, b.diagnostics = a.diagnostics ++ more ∧ ∀ d ∈ more, d.fault.code ≠ "Z0201"

theorem Assembly.resolveScope_confined (a : Assembly) (id : Nat) : a.Confined id (a.resolveScope id) := by
  obtain ⟨log, hr, hinside⟩ := sweeps_resolution (some id) a.pending.size a
  have hqueued : ∀ entry ∈ log, entry.1 ∈ a.pending := fun entry hm =>
    Array.mem_toList_iff.1 (hr.perm.subset (mem_append_left _ (mem_map_of_mem hm)))
  refine ⟨hr.queue (fun p hp => ?_) fun entry hm => ?_, fun k i hfree => ?_, fun slot key hfree => ?_, hr.frames,
    Even.settling.resolution hr |>.modules, _, hr.diagnostics, fun d hd => ?_⟩
  · cases hin : a.symbols.encloses p.scope id with
    | false => rfl
    | true =>
      have hmeant : (a.resolveScope id).isInside (some id) p = true := (isInside_eq hr.frames _ p).trans hin
      exact decide_eq_true (sweeps_stuck (Nat.le_refl _) p hp hmeant)
  · have hin : a.symbols.encloses entry.1.scope id = true := hinside entry hm
    rw [hin]
    exact decide_eq_false (hr.not_waits entry hm)
  · exact hr.byteAt fun entry hm => hfree _ (hqueued entry hm) (hinside entry hm)
  · exact hr.symbol fun entry hm => hfree _ (hqueued entry hm) (hinside entry hm)
  · obtain ⟨entry, hm, hd⟩ := mem_filterMap.1 (mem_toArray.1 hd)
    obtain ⟨fault, hfault, rfl⟩ := Option.map_eq_some_iff.1 hd
    exact hr.fault_code entry hm fault hfault

/-! ## What a waiting patch sees -/

namespace SymbolTable

variable {t u : SymbolTable}

theorem lookup_eq (hm : u.modules = t.modules) {scope : Option Nat}
    (hs : ∀ j ∈ t.chain scope, u.scopes[j]? = t.scopes[j]?) (ref : SymbolRef) (module : Nat) :
    u.lookup ref scope module = t.lookup ref scope module := by
  have hchain : u.chain scope = t.chain scope := chain_eq fun j hj => by rw [parent?, parent?, hs j hj]
  have hscopes : u.lookupScopes scope ref.joined = t.lookupScopes scope ref.joined := by
    unfold lookupScopes
    rw [hchain, ← head?_filterMap, ← head?_filterMap, filterMap_congr fun j hj => by rw [hs j hj]]
  unfold lookup
  rw [hscopes, moduleChain_congr (t := u) (u := t) fun id => by rw [hm]]
  simp [resolveIn_congr hm]

theorem scopes_closeScope_other {keep : Bool} {j : Nat} (h : t.top? ≠ some j) :
    (t.closeScope keep).scopes[j]? = t.scopes[j]? := by
  obtain ⟨_, hclosed, rfl | ⟨id, htop, rfl⟩⟩ := t.closeScope_eq keep <;> rw [hclosed]
  have hid : id ≠ j := fun he => h (he ▸ htop)
  rw [Array.getElem?_modify, if_neg hid]

end SymbolTable

/-- Scopes open and close while a patch waits, and symbols change, but none of a scope around the patch
or of a module. -/
inductive Assembly.Beside (p : Patch) (a : Assembly) : Assembly → Prop where
  | refl : Beside p a a
  | opens {b : Assembly} (h : Beside p a b) (kind : ScopeKind) (pass : Int64) : Beside p a (b.enterScope kind pass)
  | closes {b : Assembly} (h : Beside p a b) : Beside p a b.closeScope
  | symbols {b : Assembly} {id : Nat} (h : Beside p a b) (hid : b.symbols.encloses p.scope id = false)
    (f : NameTable Symbol → NameTable Symbol) :
    Beside p a { b with symbols := b.symbols.modifySymbols (.scope id) f }
  /-- anything happens that leaves the table alone and the patch in the queue -/
  | others {b c : Assembly} (h : Beside p a b) (hs : c.symbols = b.symbols) (hp : p ∈ c.pending) : Beside p a c

/-- The scopes around a waiting patch stay as they are. -/
theorem Assembly.Beside.kept (h : a.Beside p b) (ha : a.Orderly) (hp : p ∈ a.pending) :
    p ∈ b.pending ∧ b.symbols.modules = a.symbols.modules ∧ a.symbols.nextScope ≤ b.symbols.nextScope ∧
      ∀ j ∈ a.symbols.chain p.scope, b.symbols.scopes[j]? = a.symbols.scopes[j]? := by
  have hold := lt_of_mem_chain ha.nested.parents (ha.scopes p hp)
  have hchain {b : Assembly} (hs : ∀ j ∈ a.symbols.chain p.scope, b.symbols.scopes[j]? = a.symbols.scopes[j]?) :
      b.symbols.chain p.scope = a.symbols.chain p.scope :=
    chain_eq fun j hj => by rw [parent?, parent?, hs j hj]
  induction h with
  | refl => exact ⟨hp, rfl, Nat.le_refl _, fun _ _ => rfl⟩
  | @opens b _ kind pass ih =>
    obtain ⟨hp, hm, hn, hs⟩ := ih
    refine ⟨hp, hm, ?_, fun j hj => ?_⟩
    · rw [nextScope_enterScope]
      omega
    · rw [scopes_enterScope b kind pass (Nat.lt_of_lt_of_le (hold j hj) hn), hs j hj]
  | @closes b _ ih =>
    obtain ⟨hp, hm, hn, hs⟩ := ih
    refine ⟨hp, (b.symbols.modules_closeScope _).1.trans hm, ?_, fun j hj => (Eq.trans ?_ (hs j hj))⟩
    · exact Nat.le_trans hn (Nat.le_of_eq (b.symbols.nextScope_closeScope _).symm)
    · by_cases htop : b.symbols.top? = some j
      · have hin : b.symbols.encloses p.scope j = true := by
          rw [encloses, hchain hs]
          exact contains_iff_mem.2 hj
        rw [scopes_closeScope_awaited hp htop hin]
      · exact scopes_closeScope_other htop
  | @symbols b id _ hid f ih =>
    obtain ⟨hp, hm, hn, hs⟩ := ih
    refine ⟨hp, hm, ?_, fun j hj => ?_⟩
    · exact Nat.le_trans hn (Nat.le_of_eq Array.size_modify.symm)
    · have hne : id ≠ j := by
        rintro rfl
        rw [encloses, hchain hs, contains_iff_mem.2 hj] at hid
        cases hid
      refine Eq.trans ?_ (hs j hj)
      simp [modifySymbols, modifyScope, Array.getElem?_modify, if_neg hne]
  | others _ hs hp ih =>
    obtain ⟨-, hm, hn, hscopes⟩ := ih
    rw [hs]
    exact ⟨hp, hm, hn, hscopes⟩

/-- A patch that waits goes on seeing what it sees, whatever scopes close and open. -/
theorem History.waiting_sees {setup : Setup} {es : List Event} {a b : Assembly} (h : History (.new setup) es a)
    {p : Patch} (hp : p ∈ a.pending) (hb : a.Beside p b) : p ∈ b.pending ∧
      (∀ ref, b.symbols.lookup ref p.scope p.module = a.symbols.lookup ref p.scope p.module) ∧
      b.symbols.loopCounter? p.scope = a.symbols.loopCounter? p.scope := by
  have ha := h.orderly (.new setup) (.new setup)
  obtain ⟨hp, hm, -, hs⟩ := hb.kept ha hp
  exact ⟨hp, fun ref => lookup_eq hm hs ref p.module,
    loopCounter?_eq fun j hj => by rw [hs j hj]⟩

/-- A word inside a procedure waits for a name. -/
def waitingProc : List SourceLine := [procLine, ⟨⟨0, 1⟩, none, some (.pragma (.defw [lateName])), none⟩, endLine]

/-- It sees the same behind the procedure, and after another one. -/
theorem waiting_sees_proc : let a := ((walkProgram waitingProc).run (.new {})).2.flushLabel
    ∃ p ∈ a.pending, p.scope = some 0 ∧ ∀ ref, (a.enterScope .proc 0).closeScope.symbols.lookup ref p.scope p.module =
        a.symbols.lookup ref p.scope p.module := by
  intro a
  obtain ⟨es, h⟩ := walked_history {} waitingProc
  have hfirst : (a.pending[0]?).map (·.scope) = some (some 0) := by decide +kernel
  obtain ⟨p, hp, hscope⟩ := Option.map_eq_some_iff.1 hfirst
  have hwaits := Array.mem_of_getElem? hp
  exact ⟨p, hwaits, hscope, (h.waiting_sees hwaits (.closes (.opens .refl .proc 0))).2.1⟩

end SpectrumAsm
