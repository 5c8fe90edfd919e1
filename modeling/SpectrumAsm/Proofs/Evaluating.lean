/-
What an evaluation depends on and what it changes.

Evaluating an expression marks its symbols as asked for and may draw random numbers; nothing else of the state
changes. Whether it has to wait is decided by the values of its symbols alone.
-/
import SpectrumAsm.Assembly.Data
import SpectrumAsm.Proofs.Runs

namespace SpectrumAsm

open List

variable {a : Assembly} {e : Expr} {names : List String}

/-! ## Names asked for -/

namespace SymbolTable

theorem markUsed_eq (t : SymbolTable) (name : String) : ∃ used, t.markUsed name = { t with used } := by
  unfold markUsed
  split
  · exact ⟨t.used, rfl⟩
  · exact ⟨_, rfl⟩

theorem markExpr_eq (t : SymbolTable) (e : Expr) : ∃ used, t.markExpr e = { t with used } := by
  unfold markExpr
  generalize e.symbols = refs
  induction refs generalizing t with
  | nil => exact ⟨t.used, rfl⟩
  | cons ref refs ih =>
    obtain ⟨used, h⟩ := t.markUsed_eq ref.joined
    rw [foldl_cons, h]
    exact ih { t with used }

section
variable {t u : SymbolTable}

theorem outward_eq {n id : Nat} (h : ∀ j ∈ t.outward n id, u.parent? j = t.parent? j) :
    u.outward n id = t.outward n id := by
  induction n generalizing id with
  | zero => rfl
  | succ n ih =>
    unfold outward at h ⊢
    rw [h id mem_cons_self]
    cases hp : t.parent? id with
    | none => rfl
    | some parent =>
      rw [hp] at h
      exact congrArg (id :: ·) (ih fun j hj => h j (mem_cons_of_mem id hj))

theorem chain_eq {scope : Option Nat} (h : ∀ j ∈ t.chain scope, u.parent? j = t.parent? j) :
    u.chain scope = t.chain scope := by
  cases scope with
  | none => rfl
  | some id => exact outward_eq h

theorem chain_congr (h : t.scopes = u.scopes) (scope : Option Nat) : t.chain scope = u.chain scope :=
  chain_eq fun j _ => by rw [parent?, parent?, h]

theorem moduleChain_congr (h : ∀ id : Nat, t.modules[id]?.bind (·.parent) = u.modules[id]?.bind (·.parent))
    (id : Nat) : t.moduleChain id = u.moduleChain id := by
  unfold moduleChain
  generalize id + 1 = n
  induction n generalizing id with
  | zero => rfl
  | succ n ih => simp [moduleOutward, h, ih]

theorem resolveIn_congr (h : t.modules = u.modules) (id : Nat) (path : List String) :
    t.resolveIn id path = u.resolveIn id path := by
  induction path generalizing id with
  | nil => simp [resolveIn, h]
  | cons part rest ih => simp [resolveIn, h, ih]

theorem lookup_congr (hm : t.modules = u.modules) (hs : t.scopes = u.scopes) (ref : SymbolRef)
    (scope : Option Nat) (module : Nat) : t.lookup ref scope module = u.lookup ref scope module := by
  simp [lookup, lookupScopes, chain_congr hs, moduleChain_congr (t := t) (u := u) fun id => by rw [hm],
    resolveIn_congr hm, hs]

theorem env_congr (hm : t.modules = u.modules) (hs : t.scopes = u.scopes) (place : Place) :
    t.env place = u.env place := by
  simp [env, loopCounter?, lookup_congr hm hs, chain_congr hs, hs]

end

@[simp] theorem env_used (t : SymbolTable) (used : List String) (place : Place) :
    env { t with used } place = t.env place := by
  apply env_congr <;> rfl

end SymbolTable

/-! ## Waiting -/

theorem Draw.run_bind {α β : Type} (x : Draw α) (f : α → Draw β) (g : Random) :
    (x >>= f).run.run g = match x.run.run g with
      | (.ok v, g) => (f v).run.run g
      | (.error fault, g) => (.error fault, g) := by
  rw [ExceptT.run_bind, StateT.run_bind]
  obtain ⟨outcome | v, g⟩ := x.run.run g <;> rfl

section
variable {α : Type} [BEq α] [LawfulBEq α]

theorem mem_foldl_distinct (xs seen : List α) (x : α) :
    x ∈ xs.foldl (fun seen x => if seen.contains x then seen else seen ++ [x]) seen ↔ x ∈ seen ∨ x ∈ xs := by
  induction xs generalizing seen with
  | nil => simp
  | cons y xs ih =>
    rw [foldl_cons, ih, mem_cons]
    split
    · next hy =>
      have hmem : x = y → x ∈ seen := fun hx => hx ▸ contains_iff_mem.1 hy
      grind
    · rw [mem_append, mem_singleton, or_assoc]

theorem nodup_foldl_distinct (xs seen : List α) (h : seen.Nodup) :
    (xs.foldl (fun seen x => if seen.contains x then seen else seen ++ [x]) seen).Nodup := by
  induction xs generalizing seen with
  | nil => exact h
  | cons y xs ih =>
    rw [foldl_cons]
    split
    · exact ih seen h
    · next hy =>
      have hnew : y ∉ seen := fun hm => hy (contains_iff_mem.2 hm)
      exact ih _ (nodup_append.2 ⟨h, by simp, by grind⟩)

@[simp] theorem mem_distinct {xs : List α} {x : α} : x ∈ distinct xs ↔ x ∈ xs := by
  unfold distinct
  rw [mem_foldl_distinct]
  simp

theorem nodup_distinct (xs : List α) : (distinct xs).Nodup := nodup_foldl_distinct xs [] nodup_nil

end

namespace Expr

/-- An expression has to wait: it is no fault yet, and some of its symbols have no value. -/
def Waits (env : Env) (e : Expr) : Prop := e.params = [] ∧ e.pendingNames env ≠ []

variable {env : Env}

theorem evaluate_waits (h : e.Waits env) (g : Random) :
    (e.evaluate env).run.run g = (.ok (.pending (e.pendingNames env)), g) := by
  unfold evaluate
  rw [h.1]
  cases hn : e.pendingNames env with
  | nil => exact absurd hn h.2
  | cons name names => rfl

theorem evaluate_known (hp : e.params = []) (hn : e.pendingNames env = [])
    (g : Random) : (e.evaluate env).run.run g = match (e.value env).run.run g with
      | (.ok v, g) => (.ok (.ready v), g)
      | (.error fault, g) => (.error fault, g) := by
  unfold evaluate
  rw [hp, hn]
  rw [Draw.run_bind]
  obtain ⟨fault | v, g⟩ := (e.value env).run.run g <;> rfl

theorem evaluate_param {name : String} (hp : e.params = name :: names) (g : Random) :
    (e.evaluate env).run.run g = (.error (.param name), g) := by
  unfold evaluate
  rw [hp]
  rfl

theorem evaluate_pending_iff {g : Random} : ((e.evaluate env).run.run g).1 = .ok (.pending names) ↔
      e.Waits env ∧ e.pendingNames env = names := by
  constructor
  · intro h
    cases hp : e.params with
    | cons name rest =>
      rw [evaluate_param hp] at h
      cases h
    | nil =>
      by_cases hn : e.pendingNames env = []
      · rw [evaluate_known hp hn] at h
        split at h <;> cases h
      · rw [evaluate_waits ⟨hp, hn⟩] at h
        exact ⟨⟨hp, hn⟩, by cases h; rfl⟩
  · rintro ⟨hw, rfl⟩
    rw [evaluate_waits hw]

def parts : Expr → List Expr
  | unary _ arg => [arg]
  | binary _ left right => [left, right]
  | cond test yes no => [test, yes, no]
  | call _ args => args
  | _ => []

@[elab_as_elim]
theorem parts_induction {motive : Expr → Prop} (step : ∀ e, (∀ part ∈ e.parts, motive part) → motive e) (e : Expr) :
    motive e := by
  induction hn : sizeOf e using Nat.strongRecOn generalizing e with
  | ind n ih =>
    refine step e fun part hpart => ih _ ?_ part rfl
    subst hn
    cases e with
    | call name args =>
      have := sizeOf_lt_of_mem (show part ∈ args from hpart)
      simp only [call.sizeOf_spec]
      omega
    | _ => simp [parts] at hpart <;> rcases hpart with rfl | rfl | rfl <;> simp <;> omega

theorem paramsAll_eq (es : List Expr) : paramsAll es = es.flatMap params := by
  induction es with
  | nil => rfl
  | cons e es ih => rw [paramsAll, ih, flatMap_cons]

theorem symbolsAll_eq (es : List Expr) : symbolsAll es = es.flatMap symbols := by
  induction es with
  | nil => rfl
  | cons e es ih => rw [symbolsAll, ih, flatMap_cons]

theorem symbols_of_part {part : Expr} (h : part ∈ e.parts) : part.symbols ⊆ e.symbols := by
  cases e with
  | call name args => exact fun ref hr => by simpa [symbols, symbolsAll_eq] using ⟨part, h, hr⟩
  | _ => simp [parts] at h <;> rcases h with rfl | rfl | rfl <;> simp [symbols]

theorem values_agree {env env' : Env} {es : List Expr} (h : ∀ e ∈ es, e.value env = e.value env') :
    values env es = values env' es := by
  induction es with
  | nil => rfl
  | cons e es ih =>
    rw [forall_mem_cons] at h
    simp [values, h.1, ih h.2]

section
variable {env env' : Env} {P : Expr → Prop} (hparts : ∀ {e}, P e → ∀ part ∈ e.parts, P part)
  (ha : P address → env.address = env'.address) (hc : P counter → env.counter = env'.counter)
include hparts ha hc

theorem value_agrees (h : P e) (hs : ∀ ref ∈ e.symbols, env.symbol ref = env'.symbol ref) :
    e.value env = e.value env' := by
  induction e using parts_induction with
  | step e ih =>
    have hp := fun part hm => ih part hm (hparts h part hm) fun ref hr => hs ref (symbols_of_part hm hr)
    cases e with
    | symbol ref => simp [value, hs ref (by simp [symbols])]
    | address => simp [value, ha h]
    | counter => simp [value, hc h]
    | call name args => rw [value, value, values_agree (show ∀ e ∈ args, _ from hp)]
    | _ => simp_all [value, parts]

theorem evaluate_agrees (h : P e) (hs : ∀ ref ∈ e.symbols, env.symbol ref = env'.symbol ref) :
    e.evaluate env = e.evaluate env' := by
  have hnames : e.pendingNames env = e.pendingNames env' := by
    unfold pendingNames
    rw [filter_congr fun ref hr => by rw [hs ref hr]]
  unfold evaluate
  rw [hnames, value_agrees hparts ha hc h hs]

end

end Expr

/-! ## Evaluations on a line -/

/-- Two states that differ at most in the names asked for and the random numbers drawn. -/
def Asked (a b : Assembly) : Prop := ∃ random used, b = { a with random, symbols := { a.symbols with used } }

namespace Asked

instance : IsPreorder Assembly Asked where
  refl a := ⟨a.random, a.symbols.used, rfl⟩
  trans := by
    rintro a _ _ ⟨_, _, rfl⟩ ⟨random, used, rfl⟩
    exact ⟨random, used, rfl⟩

theorem refl (a : Assembly) : Asked a a := Std.Refl.refl a

theorem trans {b c : Assembly} (h : Asked a b) (h' : Asked b c) : Asked a c := IsTrans.trans a b c h h'

theorem evalAt (a : Assembly) (place : Place) (e : Expr) : Asked a (a.evalAt place e).2 := by
  obtain ⟨used, h⟩ := a.symbols.markExpr_eq e
  refine ⟨((e.evaluate (a.symbols.env place)).run.run a.random).2, used, ?_⟩
  rw [← h]
  rfl

variable {b : Assembly}

theorem ofEvalAt {place : Place} {outcome : Except Fault Evaluated}
    (h : a.evalAt place e = (outcome, b)) : Asked a b := by
  have hasked := evalAt a place e
  rw [h] at hasked
  exact hasked

section
variable (h : Asked a b)
include h

theorem env (place : Place) : b.symbols.env place = a.symbols.env place := by
  obtain ⟨_, used, rfl⟩ := h
  exact a.symbols.env_used used place

theorem place : b.place = a.place := by
  obtain ⟨_, _, rfl⟩ := h
  rfl

theorem segments : b.segments = a.segments := by
  obtain ⟨_, _, rfl⟩ := h
  rfl

theorem pending : b.pending = a.pending := by
  obtain ⟨_, _, rfl⟩ := h
  rfl

theorem diagnostics : b.diagnostics = a.diagnostics := by
  obtain ⟨_, _, rfl⟩ := h
  rfl

theorem origin : b.origin = a.origin := by
  obtain ⟨_, _, rfl⟩ := h
  rfl

end

end Asked

/-- An expression has to wait on the line being assembled. -/
def Assembly.Awaits (a : Assembly) (e : Expr) : Prop := e.Waits (a.symbols.env a.place)

theorem Asked.awaits {b : Assembly} (h : Asked a b) : b.Awaits e ↔ a.Awaits e := by
  unfold Assembly.Awaits
  rw [h.place, h.env]

theorem Assembly.evalAt_outcome (a : Assembly) (place : Place) (e : Expr) : (a.evalAt place e).1 =
    ((e.evaluate (a.symbols.env place)).run.run a.random).1.mapError Fault.ofExpr := rfl

theorem Assembly.evalAt_fault {place : Place} {fault : Fault}
    (h : (a.evalAt place e).1 = .error fault) : ∃ cause, fault = .ofExpr cause := by
  rw [evalAt_outcome] at h
  cases hr : ((e.evaluate (a.symbols.env place)).run.run a.random).1 with
  | ok _ => rw [hr] at h; cases h
  | error cause => rw [hr] at h; cases h; exact ⟨cause, rfl⟩

theorem Assembly.evalAt_pending_iff {place : Place} {names : List String} :
    (a.evalAt place e).1 = .ok (.pending names) ↔
      e.Waits (a.symbols.env place) ∧ e.pendingNames (a.symbols.env place) = names := by
  rw [← Expr.evaluate_pending_iff (g := a.random), evalAt_outcome]
  cases ((e.evaluate (a.symbols.env place)).run.run a.random).1 with
  | error _ => exact ⟨nofun, nofun⟩
  | ok _ => exact ⟨fun h => congrArg _ (Except.ok.inj h), fun h => congrArg _ (Except.ok.inj h)⟩

/-! ## Steps that only evaluate -/

theorem evalExpr_asked (e : Expr) : (evalExpr e).Keeps Asked := .of fun a => Asked.evalAt a _ e

theorem evalNow_asked (e : Expr) : (evalNow e).Keeps Asked := by
  refine (evalExpr_asked e).bind fun outcome => ?_
  cases outcome with
  | ready v => exact .pure v
  | pending names => exact .throw _

theorem evalInt_asked (e : Expr) : (evalInt e).Keeps Asked := (evalNow_asked e).bind fun v => .ofExcept v.number

theorem evalTruth_asked (e : Expr) : (evalTruth e).Keeps Asked := by
  refine (evalNow_asked e).bind fun v => ?_
  cases v.truth? with
  | some b => exact .pure b
  | none => exact .throw _

theorem evalSize_asked (e : Expr) (negative : Fault) : (evalSize e negative).Keeps Asked := by
  refine (evalNow_asked e).bind fun v => ?_
  cases v.integer? with
  | none => exact .throw _
  | some n =>
    dsimp only
    split
    · exact .throw _
    · exact .pure _

theorem fillCount_asked (count : Int64) (unit : Nat) : (fillCount count unit).Keeps Asked :=
  Step.Keeps.get.bind fun a => .ofExcept (a.fillCount count unit)

theorem skipOf_asked (target : Expr) (fill : Option Expr) : (skipOf target fill).Keeps Asked := by
  refine (evalInt_asked target).bind fun n => Step.Keeps.get.bind fun a => ?_
  dsimp only
  split
  · exact .throw _
  cases fill with
  | none => exact .pure _
  | some e => exact (evalInt_asked e).bind fun _ => .pure _

theorem filePart_asked (name : String) (offset : Nat) (length : Option Nat) :
    (filePart name offset length).Keeps Asked := by
  refine Step.Keeps.get.bind fun a => ?_
  dsimp only
  split
  · exact .throw _
  split
  · exact .throw _
  split
  · exact .throw _
  · exact .pure _

theorem fileOf_asked (file : Expr) (offset length : Option Expr) : (fileOf file offset length).Keeps Asked := by
  refine (evalNow_asked file).bind fun v => ?_
  dsimp only
  split
  · cases offset
    case' some e => refine (evalSize_asked e _).bind fun offset => ?_
    all_goals
      cases length with
      | none => exact filePart_asked _ _ none
      | some e => exact (evalSize_asked e _).bind fun n => filePart_asked _ _ (some n)
  · exact .throw _

theorem messageOf_asked (e : Expr) : (messageOf e).Keeps Asked := by
  unfold messageOf
  split
  · exact .pure _
  · refine (evalNow_asked _).bind fun v => ?_
    split
    · exact .pure _
    · exact .throw _

theorem hexOf_asked (e : Expr) : (hexOf e).Keeps Asked := by
  refine (evalNow_asked e).bind fun v => ?_
  split
  · split
    · exact .pure _
    · exact .throw _
  · exact .throw _

theorem patternOf_asked (bytes : String → List UInt8) (e : Expr) : (patternOf bytes e).Keeps Asked := by
  refine (evalNow_asked e).bind fun v => ?_
  split
  · split
    · exact .throw _
    · exact .pure _
  · exact .throw _

end SpectrumAsm
