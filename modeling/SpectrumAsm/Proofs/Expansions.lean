/-
Expansions of macros have no parameters left.

Arguments without parameters leave none on the lines of a macro. That no other line reached from there has one
is read off a simulation of the expansion by itself, whose lines are all filled.
-/
import SpectrumAsm.Proofs.Binding
import SpectrumAsm.Proofs.RewrittenWalks

namespace SpectrumAsm

open List

variable {a : Assembly}

theorem Fault.code_of_isParam_eq_false {f : Fault} (h : f.isParam = false) : f.code ≠ "Z0420" ∧ f.code ≠ "Z0422" := by
  cases f <;> simp_all [code, described]

/-- Nothing is rewritten, and no line that is walked has a parameter in it. -/
abbrev Assembly.unchanged (a : Assembly) : Rewriting where
  case := id
  upcase_case := upcase_id
  exact := False
  free := False
  filled := True
  hung _ := False
  bad _ := False
  loud _ h := h ⟨.loopOverflow, "", 0⟩
  names := a.setup.names
  old := a.diagnostics

/-- The structures of a state have no parameters in their lines. -/
def SymbolTable.StructsFilled (t : SymbolTable) : Prop :=
  ∀ (id : Nat) (m : Module), t.modules[id]? = some m → ∀ entry ∈ m.structs.entries, ∀ line ∈ entry.2.body, line.Filled

/-- The scopes of a table stand for themselves. -/
def SymbolTable.identity (t : SymbolTable) : ScopeMap := fun id =>
  if id < t.scopes.size then some (.scope id) else none

theorem Rewritten.same {K : Rewriting} {lines : List SourceLine} (hcase : K.case = id) (hexact : ¬ K.exact)
    (hfree : ¬ K.free) (hfilled : K.filled → ∀ l ∈ lines, l.Filled) : Rewritten K lines lines :=
  .ofLines (forall₂_same.2 fun l hl => SourceLine.Same.line ⟨rfl, rfl, rfl⟩ hcase hexact fun hf =>
    hfilled hf l hl) fun _ _ h => absurd h hfree

theorem MacroDef.Alike.same (a : Assembly) (d : MacroDef) : d.Alike a.unchanged d :=
  ⟨rfl, by simp, .same rfl id id nofun, by simp⟩

namespace SymbolTable

variable {t : SymbolTable} {i j : Nat}

theorem identity_eq (h : i < t.scopes.size) : t.identity i = some (.scope i) := if_pos h

theorem identity_eq_some {image : Image} (h : t.identity i = some image) : i < t.scopes.size ∧ image = .scope i := by
  unfold identity at h
  split at h <;> cases h
  exact ⟨‹_›, rfl⟩

theorem identity_rel {scope : Option Nat} (h : ∀ id, scope = some id → id < t.scopes.size) :
    ScopeRel t.identity scope scope := by
  cases scope with
  | none => exact .none
  | some id => exact .some (identity_eq (h id rfl))

theorem Alike.same (a : Assembly) (ht : t.WellNested) (hstructs : t.StructsFilled) :
    t.Alike a.unchanged t.identity none t where
  modules k := by
    cases hm : t.modules[k]? with
    | none => exact .none
    | some m =>
      exact .some ⟨rfl, rfl, rfl, forall₂_same.2 fun _ _ => ⟨rfl, rfl, rfl, rfl, fun _ => rfl⟩,
        forall₂_same.2 fun _ _ => ⟨rfl, .same a _⟩,
        forall₂_same.2 fun entry hentry => ⟨rfl, rfl, rfl, rfl,
          (Rewritten.same rfl id id fun _ => hstructs k m hm entry hentry).bodies
            (absurd · (a.unchanged.loud trivial))⟩⟩
  scopes {i j} h := by
    obtain ⟨hi, hj⟩ := identity_eq_some h
    cases hj
    refine ⟨_, _, Array.getElem?_eq_getElem hi, Array.getElem?_eq_getElem hi, rfl, identity_rel fun p hp => ?_,
      forall₂_same.2 fun _ _ => ⟨rfl, rfl, rfl, rfl, fun _ => rfl⟩, rfl, rfl, rfl⟩
    have := ht.parents i p (by simp [parent?, Array.getElem?_eq_getElem hi, hp])
    omega
  passes h := by cases (identity_eq_some h).2
  injective h h' := by
    cases (identity_eq_some h).2
    cases (identity_eq_some h').2
    rfl
  smaller := ht.parents
  smaller' := ht.parents
  active := .outside (forall₂_same.2 fun id hid => identity_eq (ht.active id hid))
  current := rfl
  used := rfl
  explicitLocals := rfl

end SymbolTable

theorem Assembly.Alike.same (hreach : Reachable a) (ha : a.Orderly) (hstructs : a.symbols.StructsFilled) :
    a.Alike a.unchanged a.symbols.identity none False a where
  names := rfl
  setup := rfl
  segments := rfl
  symbols := .same a ha.nested hstructs
  pending := forall₂_same.2 fun p hp => by
    have hp := Array.mem_toList_iff.1 hp
    obtain ⟨hplain, hfree⟩ := hreach.queuePlain p hp
    refine ⟨rfl, rfl, rfl, rfl, hplain, ?_, .scope (SymbolTable.identity_rel (ha.scopes p hp)), rfl, rfl, nofun⟩
    by_cases hkind : p.kind = .equ
    · obtain ⟨slot, key, _, ht, -, -, -, hslot⟩ := ha.aimed.aims p (Array.mem_toList_iff.2 hp) hkind
      rw [ht]
      refine .some ⟨?_, rfl⟩
      cases slot with
      | module id => exact .module id
      | scope id => exact .scope (SymbolTable.identity_eq (ha.scopes p hp id (hslot id rfl)))
    · rw [hfree hkind]
      exact .none
  reports _ := ⟨[], [], by simp, by simp, .nil⟩
  random := rfl
  readings := rfl
  model := rfl
  entry := rfl
  exportEntry := rfl
  placed := nofun
  trace := rfl
  hanging := by
    cases a.hanging with
    | none => exact .none
    | some _ => exact .some ⟨rfl, nofun⟩
  macroDepth := rfl
  opened := rfl
  overrun := rfl
  held := Assembly.held_none
  pos := nofun
  origin := False.elim
  file := False.elim

/-- The lines of an expansion have no parameters, and so none of them is faulted for one; the lines of a
structure that was defined outside may still be. -/
theorem expansion_filled {setup : Setup} {es : List Event} (hwalked : History (.new setup) es a) (d : MacroDef)
    {name : String} {args : List Operand} (hargs : (Stmt.invoke name args).hasParam = false) :
    (∀ line ∈ Bindings.substituteLines ⟨d.params, args⟩ d.body, ∀ s, line.stmt = some s → s.hasParam = false) ∧
      (a.symbols.StructsFilled → ∀ depth pos, a.setup.options.maxMacroDepth ≤ a.macroDepth + (depth + 1) →
        ∃ new, ((reporting (expandMacro (some (walkDepth depth)) pos d args)).run a).2.diagnostics.toList =
          a.diagnostics.toList ++ new ∧ ∀ report ∈ new, report.fault.code ≠ "Z0420" ∧ report.fault.code ≠ "Z0422") := by
  refine ⟨fun line hline => ?_, fun hstructs depth pos hdepth => ?_⟩
  · rw [Bindings.substituteLines_eq] at hline
    obtain ⟨l, -, rfl⟩ := mem_map.1 hline
    exact Bindings.filled_line hargs l
  · have horder := hwalked.orderly (.new setup) (.new setup)
    have hreach : Reachable a := ⟨setup, hwalked.moves⟩
    have hexpand : ExpandsTo (some (walkDepth depth)) (depth + 1) := ⟨depth, rfl, fun m => walkDepth_ends depth m⟩
    obtain ⟨t, ht⟩ := hexpand.expansion ⟨hreach, hdepth⟩ d args pos
    obtain ⟨π, -, h⟩ := ht.alike ht (.expand (.same a d) nofun hargs nofun (.same hreach horder hstructs)) hreach hreach
      (fun _ _ => id) (fun hq => absurd hq (a.unchanged.loud trivial)) fun _ _ => False.elim
    obtain ⟨new, new', hnew, -, hreports⟩ := h.reports (a.unchanged.loud trivial)
    refine ⟨new, hnew, fun report hreport => ?_⟩
    obtain ⟨_, -, hreport⟩ := exists_of_mem_left hreports hreport
    exact Fault.code_of_isParam_eq_false (hreport.fault.filled trivial)

/-- Two parameters in a load, one of them without an argument. -/
theorem expansion_filled_load : ∃ new, ((reporting (expandMacro (some (walkDepth 32)) ⟨0, 4⟩ ⟨"M", ["X", "Y"],
    [⟨⟨0, 2⟩, none, some (.op .ld [.param "X", .memory (.param "Y")]), none⟩], none⟩ [.reg8 .a])).run
      (.new {})).2.diagnostics.toList = [] ++ new ∧
        ∀ report ∈ new, report.fault.code ≠ "Z0420" ∧ report.fault.code ≠ "Z0422" := by
  refine (expansion_filled (.refl (.new {})) _ (show (Stmt.invoke "M" [.reg8 .a]).hasParam = false from rfl)).2
    ?_ 32 _ (by decide)
  rintro (_ | id) m hm entry hentry
  · cases hm
    cases hentry
  · cases hm

/-- A structure with a parameter in its line, and a macro that invokes it. -/
def invokingMacro : List SourceLine :=
  [⟨⟨0, 0⟩, some "S", some (.statement .structDef), none⟩, ⟨⟨0, 1⟩, none, some (.pragma (.defb [.param "x"])), none⟩,
    ⟨⟨0, 2⟩, none, some (.statement .endStruct), none⟩, ⟨⟨0, 3⟩, some "M", some (.statement (.macroDef [])), none⟩,
    ⟨⟨0, 4⟩, none, some (.invoke "S" []), none⟩, ⟨⟨0, 5⟩, none, some (.statement .endMacro), none⟩]

/-- Where the structure is defined it is faulted, and the macro is accepted; an invocation of the macro is
faulted for the structure once more. -/
theorem invoked_struct_unfilled :
    let codes (lines : List SourceLine) := ((assembleLines lines).run (.new {})).2.diagnostics.toList.map (·.fault.code)
    codes invokingMacro = ["Z0420"] ∧
      codes (invokingMacro ++ [⟨⟨0, 6⟩, none, some (.invoke "M" []), none⟩]) = ["Z0420", "Z0420"] := by
  decide +kernel

end SpectrumAsm
