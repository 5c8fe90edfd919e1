/-
What the evaluation of an expression can do.

Only `rnd` draws random numbers, and only parameters of macros cause the faults of parameters. A text has at
most `maxText` characters, except that each call of a case function can make it up to three times as long.
-/
import Mathlib.Algebra.GroupWithZero.Nat
import Mathlib.Data.String.Basic
import SpectrumAsm.Proofs.Evaluating
import SpectrumAsm.Proofs.Simulation

namespace SpectrumAsm

open List ExprFault Value

variable {runs : List (Nat × Nat × Nat × Int)} {es : List Expr} {long : List (Nat × List Char)} {e : Expr}

/-- The fault is not about a parameter. -/
abbrev ExprFault.Filled (cause : ExprFault) : Prop := (Fault.ofExpr cause).isParam = false

/-! ## Computations -/

/-- A fault in `E`, or a result in `R`. -/
def Draw.Within {α : Type} (E : ExprFault → Prop) (R : α → Prop) : Except ExprFault α → Prop
  | .error cause => E cause
  | .ok v => R v

theorem Draw.Within.mono {α : Type} {E E' : ExprFault → Prop} {Q R : α → Prop} {x : Except ExprFault α}
    (h : Draw.Within E Q x) (hE : ∀ cause, E cause → E' cause) (hR : ∀ v, Q v → R v) : Draw.Within E' R x := by
  cases x with
  | ok v => exact hR v h
  | error cause => exact hE cause h

/-- A computation that neither draws random numbers nor depends on them. -/
def Draw.Still {α : Type} (x : Draw α) : Prop := ∃ r, ∀ g, x.run.run g = (r, g)

/-- The outcomes of a computation, which is still if `S` holds. -/
structure Draw.Obeys {α : Type} (S : Prop) (E : ExprFault → Prop) (R : α → Prop) (x : Draw α) : Prop where
  outcome : ∀ g, Draw.Within E R (x.run.run g).1
  still : S → x.Still

namespace Draw.Obeys

variable {α β : Type} {S S' : Prop} {E E' : ExprFault → Prop} {Q R : α → Prop} {R' : β → Prop}

theorem pure {v : α} (h : R v) : Obeys S E R (Pure.pure v) := ⟨fun _ => h, fun _ => ⟨.ok v, fun _ => rfl⟩⟩

theorem throw {cause : ExprFault} (h : E cause) : Obeys S E R (throw cause : Draw α) :=
  ⟨fun _ => h, fun _ => ⟨.error cause, fun _ => rfl⟩⟩

theorem modifyGet {f : Random → α × Random} (hS : ¬S) (h : ∀ v, R v) : Obeys S E R (modifyGet f : Draw α) :=
  ⟨fun g => h (f g).1, fun hs => absurd hs hS⟩

theorem ofExcept {x : Except ExprFault α} (h : Within E R x) : Obeys S E R (ofExcept x) := by
  cases x with
  | ok v => exact pure h
  | error cause => exact throw h

theorem ite {c : Prop} [Decidable c] {x y : Draw α} (hx : c → x.Obeys S E R) (hy : ¬c → y.Obeys S E R) :
    Obeys S E R (if c then x else y) := by
  split
  · exact hx ‹c›
  · exact hy ‹¬c›

theorem bind {x : Draw α} {f : α → Draw β} (hx : x.Obeys S E Q) (hf : ∀ v, Q v → (f v).Obeys S E R') :
    (x >>= f).Obeys S E R' where
  outcome g := by
    have hout := hx.outcome g
    rw [run_bind]
    rcases hrun : x.run.run g with ⟨cause | v, g'⟩ <;> rw [hrun] at hout
    · exact hout
    · exact (hf v hout).outcome g'
  still hs := by
    obtain ⟨fault | v, hr⟩ := hx.still hs
    · refine ⟨.error fault, fun g => ?_⟩
      rw [run_bind, hr]
    · have hv : Within E Q (.ok v) := by simpa only [hr] using hx.outcome ⟨0⟩
      obtain ⟨r, hf⟩ := (hf v hv).still hs
      refine ⟨r, fun g => ?_⟩
      rw [run_bind, hr]
      exact hf g

theorem mono {x : Draw α} (h : x.Obeys S E Q) (hS : S' → S) (hE : ∀ cause, E cause → E' cause)
    (hR : ∀ v, Q v → R v) : x.Obeys S' E' R :=
  ⟨fun g => (h.outcome g).mono hE hR, fun hs => h.still (hS hs)⟩

end Draw.Obeys

/-! ## Texts and operators -/

/-- The length of a text; nothing else has one. -/
def Value.textSize : Value → Nat
  | str s => s.length
  | _ => 0

namespace Text

theorem length_mapCase
    (h : ∀ form ∈ long, form.2.length ≤ 3) (c : Char) : (mapCase runs long c).length ≤ 3 := by
  unfold mapCase
  dsimp only
  split
  · next image hlookup =>
    obtain ⟨_, _, hsplit, _⟩ := lookup_eq_some_iff.1 hlookup
    exact h (c.toNat, image) (by simp [hsplit])
  · split <;> simp

theorem mapCase_of_long {c : Char}
    {image : List Char} (h : long.lookup c.toNat = some image) : mapCase runs long c = image := by
  simp [mapCase, h]

/-- The same on characters, which is what the kernel can compute with. -/
theorem longForms_ofList (cs : List Char) : longForms (String.ofList cs) =
    (cs.splitOnP Char.isWhitespace).filterMap fun word => word.head?.map fun c => (c.toNat, word.tail) := by
  unfold longForms words
  rw [String.splitToList_of_valid, String.toList_ofList]
  induction cs.splitOnP Char.isWhitespace with
  | nil => rfl
  | cons word words ih =>
    cases word with
    | nil => exact ih
    | cons c word => simpa using ih

set_option maxRecDepth 4000 in
theorem length_upperLong :
    (∀ form ∈ upperLong, form.2.length ≤ 3) ∧ (upperLong.lookup 'ΐ'.toNat).map length = some 3 := by
  rw [show upperLong = _ from longForms_ofList _]
  decide +kernel

theorem length_lowerLong : ∀ form ∈ lowerLong, form.2.length ≤ 3 := by
  rw [show lowerLong = _ from longForms_ofList _]
  decide +kernel

theorem length_upperChar (c : Char) : (upperChar c).length ≤ 3 := by
  unfold upperChar
  split
  · exact Nat.le_add_left 1 2
  · exact length_mapCase length_upperLong.1 c

theorem length_lowerChar (c : Char) : (lowerChar c).length ≤ 3 := by
  unfold lowerChar
  split
  · exact Nat.le_add_left 1 2
  · exact length_mapCase length_lowerLong c

theorem length_upper (s : String) : (upper s).length ≤ 3 * s.length := by
  unfold upper
  rw [String.length_ofList, ← String.length_toList]
  induction s.toList with
  | nil => simp
  | cons c cs ih =>
    have := length_upperChar c
    rw [flatMap_cons, length_append, length_cons]
    omega

theorem length_lowerFrom (before cs : List Char) : (lowerFrom before cs).length ≤ 3 * cs.length := by
  induction cs generalizing before with
  | nil => simp [lowerFrom]
  | cons c cs ih =>
    have himage := length_lowerChar c
    have hrest := ih (c :: before)
    simp only [lowerFrom, length_append, length_cons]
    split
    · split <;> simp only [length_singleton] <;> omega
    · omega

theorem length_lower (s : String) : (lower s).length ≤ 3 * s.length := by
  unfold lower
  rw [String.length_ofList, ← String.length_toList]
  exact length_lowerFrom [] s.toList

end Text

namespace Value

theorem utf8ByteSize_ofList (cs : List Char) : (String.ofList cs).utf8ByteSize = (cs.map Char.utf8Size).sum := by
  induction cs with
  | nil => simp
  | cons c cs ih =>
    rw [String.ofList_cons, String.utf8ByteSize_append, String.utf8ByteSize_singleton, ih, map_cons, sum_cons]

theorem length_le_utf8ByteSize (s : String) : s.length ≤ s.utf8ByteSize := by
  rw [← s.ofList_toList, utf8ByteSize_ofList, String.length_ofList]
  induction s.toList with
  | nil => exact Nat.le_refl 0
  | cons c cs ih =>
    have hc := c.utf8Size_pos
    rw [length_cons, map_cons, sum_cons]
    omega

theorem unary_within (op : UnaryOp) (v : Value) : Draw.Within Filled (·.textSize = 0) (unary op v) := by
  cases op <;> cases v <;> exact rfl

theorem binary_within (op : BinaryOp) (l r : Value) : Draw.Within Filled (·.textSize ≤ maxText) (binary op l r) := by
  unfold binary
  split
  · next l r =>
    unfold textual
    split
    case h_1 =>
      split
      · exact rfl
      · have hl := length_le_utf8ByteSize l
        have hr := length_le_utf8ByteSize r
        show (l ++ r).length ≤ maxText
        rw [String.length_append]
        omega
    all_goals first | exact rfl | exact Nat.zero_le _
  · exact rfl
  · exact rfl
  split <;> split
  · cases hb : bitwise op _ _ with
    | none => exact rfl
    | some i => exact Nat.zero_le _
  · exact rfl
  · unfold integral
    split <;> (try split) <;> first | exact rfl | exact Nat.zero_le _
  split
  · unfold fractional
    split <;> (try split) <;> first | exact rfl | exact Nat.zero_le _
  · exact rfl

theorem binary_filled {op : BinaryOp} {l r : Value} {cause : ExprFault} (h : binary op l r = .error cause) :
    (Fault.ofExpr cause).isParam = false := by
  have hout := binary_within op l r
  rwa [h] at hout

end Value

/-! ## Functions -/

namespace Function

/-- Case functions can make a text three times as long. -/
def caseSteps (name : String) : Nat := if name ∈ ["lowercase", "lcase", "uppercase", "ucase"] then 1 else 0

/-- A text that is, after `k` case functions, within the limit of the texts it comes from. -/
def Grown (k : Nat) (args : List Value) (v : Value) : Prop :=
  ∀ n, maxText ≤ n → (∀ arg ∈ args, arg.textSize ≤ n) → v.textSize ≤ n * 3 ^ k

variable {args : List Value}

theorem Grown.short {k : Nat} {v : Value} (h : v.textSize ≤ maxText) : Grown k args v :=
  fun n hn _ => Nat.le_trans (Nat.le_trans h hn) (Nat.le_mul_of_pos_right n (Nat.pow_pos (by decide)))

theorem length_textArg {n : Nat} (h : ∀ v ∈ args, v.textSize ≤ n) (i : Nat) : (textArg args i).length ≤ n := by
  unfold textArg
  cases hv : args[i]? with
  | none => exact Nat.zero_le n
  | some v =>
    have hsize := h v (mem_of_getElem? hv)
    cases v with
    | str s => exact hsize
    | _ => exact Nat.zero_le n

theorem Grown.part {k : Nat} {cs : List Char} (h : cs.Sublist (textArg args 0).toList) :
    Grown k args (.str (String.ofList cs)) := by
  intro n _ hargs
  have hlen := h.length_le
  rw [String.length_toList] at hlen
  show (String.ofList cs).length ≤ _
  rw [String.length_ofList]
  exact Nat.le_trans (Nat.le_trans hlen (length_textArg hargs 0)) (Nat.le_mul_of_pos_right n (Nat.pow_pos (by decide)))

theorem Grown.recased {s : String} (h : s.length ≤ 3 * (textArg args 0).length) : Grown 1 args (.str s) := by
  intro n _ hargs
  have harg := length_textArg hargs 0
  show s.length ≤ n * 3
  omega

/-- Functions check their arguments, limit the length of texts and draw numbers. -/
theorem signatures_obey : ∀ s ∈ all, ∀ args : List Value,
    (s.body args).Obeys (s.name ≠ "rnd") Filled (Grown (caseSteps s.name) args) := by
  have hnumber {k : Nat} {args : List Value} {v : Value} (h : v.textSize = 0) : Grown k args v :=
    .short (h ▸ Nat.zero_le _)
  have hlimit {S c : Prop} [Decidable c] {R : Value → Prop} {x : Draw Value} {fault : ExprFault}
      (hfault : fault.Filled) (hx : ¬c → x.Obeys S Filled R) :
      Draw.Obeys S Filled R (if c then throw fault >>= fun (_ : Unit) => x else x) :=
    .ite (fun _ => (Draw.Obeys.throw hfault).bind (Q := fun _ => False) nofun) hx
  unfold all
  simp only [forall_mem_append]
  refine ⟨⟨?mathematics, ?texts⟩, ?screen⟩
  case mathematics =>
    have hdrawn {S : Prop} {R : Value → Prop} {α : Type} (hS : ¬S) (f : Random → α × Random) (g : α → Value)
        (hR : ∀ v, R (g v)) : Draw.Obeys S Filled R (modifyGet f >>= fun v => pure (g v)) :=
      (Draw.Obeys.modifyGet hS fun _ => trivial).bind (Q := fun _ => True) fun v _ => .pure (hR v)
    repeat' refine forall_mem_cons.2 ⟨?_, ?_⟩
    all_goals first
      | exact fun _ => .pure (hnumber rfl)
      | exact fun _ => hdrawn (· rfl) _ _ fun _ => hnumber rfl
      | exact fun _ => hlimit rfl fun _ => hdrawn (· rfl) _ _ fun _ => hnumber rfl
      | exact forall_mem_nil _
  case texts =>
    have hnatural {S : Prop} (name : String) (value : Int64) :
        (natural name value).Obeys S Filled fun _ => True :=
      .ite (fun _ => .pure trivial) fun _ => .throw rfl
    simp only [texts, forall_mem_cons]
    refine ⟨fun _ => .pure (hnumber rfl), fun _ => .pure (hnumber rfl), fun _ => ?left, fun _ => ?right, fun _ => ?mid,
      fun _ => .pure (.recased (Text.length_lower _)), fun _ => .pure (.recased (Text.length_lower _)),
      fun _ => .pure (.recased (Text.length_upper _)), fun _ => .pure (.recased (Text.length_upper _)),
      fun _ => hlimit rfl fun hc => .pure (.short (Nat.le_of_not_gt hc)), fun _ => ?fill, forall_mem_nil _⟩
    case left => exact (hnatural _ _).bind fun _ _ => .pure (.part (take_sublist _ _))
    case right => exact (hnatural _ _).bind fun _ _ => .pure (.part (drop_sublist _ _))
    case mid =>
      exact (hnatural _ _).bind fun _ _ => (hnatural _ _).bind fun _ _ =>
        .pure (.part ((take_sublist _ _).trans (drop_sublist _ _)))
    case fill =>
      refine (hnatural _ _).bind fun k _ => hlimit rfl fun hc => .pure (.short ?_)
      show (String.ofList _).length ≤ _
      rw [String.length_ofList]
      split
      · exact Nat.zero_le _
      · rw [length_flatten, map_replicate, sum_replicate_nat, Nat.mul_comm]
        exact Nat.le_of_not_gt hc
  case screen =>
    have hbounded {S : Prop} (name : String) (value : Int64) (lo hi : Int) :
        (bounded name value lo hi).Obeys S Filled fun _ => True :=
      .ite (fun _ => .pure trivial) fun _ => .throw rfl
    have hfield {S : Prop} (name : String) (hi : Int) (place : Int64) (args : List Value) :
        ((attributeField name hi place).body args).Obeys S Filled (Grown 0 args) :=
      (hbounded _ _ _ _).bind fun _ _ => .pure (hnumber rfl)
    have hbyte {S : Prop} (args : List Value) : (attributeByte args).Obeys S Filled (Grown 0 args) :=
      (hbounded _ _ _ _).bind fun _ _ => (hbounded _ _ _ _).bind fun _ _ => (hbounded _ _ _ _).bind fun _ _ =>
        (hbounded _ _ _ _).bind fun _ _ => .pure (hnumber rfl)
    simp only [screen, forall_mem_cons]
    exact ⟨hfield _ _ _, hfield _ _ _, hfield _ _ _, hfield _ _ _, hbyte, hbyte, hbyte,
      fun _ => (hbounded _ _ _ _).bind fun _ _ => (hbounded _ _ _ _).bind fun _ _ => .pure (hnumber rfl),
      fun _ => (hbounded _ _ _ _).bind fun _ _ => (hbounded _ _ _ _).bind fun _ _ => .pure (hnumber rfl),
      forall_mem_nil _⟩

theorem call_obeys (name : String) (args : List Value) :
    (call name args).Obeys (name ≠ "rnd") Filled (Grown (caseSteps name) args) := by
  unfold call
  dsimp only
  split
  · next s hs =>
    have hmem := mem_filter.1 (mem_of_find?_eq_some hs)
    obtain rfl : s.name = name := by simpa using hmem.2
    refine (signatures_obey s hmem.1 args).bind fun value hvalue => ?_
    split
    · exact .ite (fun _ => .pure hvalue) fun _ => .throw rfl
    · exact .pure hvalue
  · split
    · exact .throw rfl
    · exact .throw rfl

end Function

/-! ## Evaluation -/

/-- Texts of symbols have at most the greatest length of a text. -/
def Env.Bounded (env : Env) : Prop := ∀ ref v, env.symbol ref = some v → v.textSize ≤ maxText

namespace Expr

mutual
/-- Literals, symbols, operators and functions other than `rnd`; no address, no counter, no macro
parameter. -/
def isConstant : Expr → Bool
  | int _ | real _ | bool _ | text _ | symbol _ => true
  | address | counter | param _ => false
  | unary _ arg => arg.isConstant
  | binary _ left right => left.isConstant && right.isConstant
  | cond test yes no => test.isConstant && yes.isConstant && no.isConstant
  | call name args => name != "rnd" && areConstant args
/-- Lists of constant expressions. -/
def areConstant : List Expr → Bool
  | [] => true
  | e :: es => e.isConstant && areConstant es
end

mutual
/-- The number of case functions that a text can go through, one after the other. -/
def caseDepth : Expr → Nat
  | cond _ yes no => max yes.caseDepth no.caseDepth
  | call name args => caseDepths args + Function.caseSteps name
  | _ => 0
/-- The greatest depth among arguments. -/
def caseDepths : List Expr → Nat
  | [] => 0
  | e :: es => max e.caseDepth (caseDepths es)
end

theorem isConstant_of_areConstant (h : areConstant es = true) : ∀ e ∈ es, e.isConstant = true := by
  induction es with
  | nil => exact nofun
  | cons e es ih =>
    simp only [areConstant, Bool.and_eq_true] at h
    exact forall_mem_cons.2 ⟨h.1, ih h.2⟩

theorem isConstant_parts (h : e.isConstant = true) : ∀ part ∈ e.parts, part.isConstant = true := by
  cases e with
  | call name args =>
    simp only [isConstant, Bool.and_eq_true] at h
    exact isConstant_of_areConstant h.2
  | _ => simp_all [parts, isConstant]

theorem params_parts (h : e.params = []) : ∀ part ∈ e.parts, part.params = [] := by
  cases e with
  | call name args => simpa [params, paramsAll_eq, parts] using h
  | _ => simp_all [params, parts]

theorem caseDepth_le (h : e ∈ es) : e.caseDepth ≤ caseDepths es := by
  induction h with
  | head es => exact Nat.le_max_left _ _
  | tail _ _ ih => exact Nat.le_trans ih (Nat.le_max_right _ _)

theorem values_obey {env : Env} {S : Prop} {E : ExprFault → Prop} {R : Value → Prop}
    (h : ∀ e ∈ es, (e.value env).Obeys S E R) : (values env es).Obeys S E fun vs => ∀ v ∈ vs, R v := by
  induction es with
  | nil => exact .pure nofun
  | cons e es ih =>
    rw [forall_mem_cons] at h
    exact h.1.bind fun v hv => (ih h.2).bind fun vs hvs => .pure (forall_mem_cons.2 ⟨hv, hvs⟩)

/-- A constant expression draws no random numbers. Without parameters there is no fault of a parameter. Texts
that are too long come from case functions. -/
theorem value_obeys (env : Env) (e : Expr) :
    (e.value env).Obeys (e.isConstant = true) (fun cause => e.params = [] → cause.Filled)
      fun v => env.Bounded → v.textSize ≤ maxText * 3 ^ e.caseDepth := by
  have hpow {d d' m : Nat} (hd : d ≤ d') (h : m ≤ maxText * 3 ^ d) : m ≤ maxText * 3 ^ d' :=
    Nat.le_trans h (Nat.mul_le_mul_left _ (Nat.pow_le_pow_right (by decide) hd))
  induction e using parts_induction with
  | step e ih =>
    have hp := fun part hm => (ih part hm).mono (fun h => isConstant_parts h part hm)
      (fun _ h hparams => h (params_parts hparams part hm)) fun _ h => h
    cases e with
    | int | real | bool | address => exact .pure fun _ => Nat.zero_le _
    | text raw =>
      refine .ite (fun _ => .throw fun _ => rfl) fun hc => .pure fun _ => ?_
      show (String.ofList _).length ≤ _
      rw [String.length_ofList]
      exact Nat.le_of_not_gt hc
    | symbol ref =>
      refine .pure fun henv => ?_
      cases hv : env.symbol ref with
      | none => exact Nat.zero_le _
      | some v => exact henv ref v hv
    | counter =>
      unfold value
      split
      · exact .pure fun _ => Nat.zero_le _
      · exact .throw fun _ => rfl
    | param name => exact .throw nofun
    | unary op arg =>
      exact (hp arg (by simp [parts])).bind fun v _ => .ofExcept
        ((unary_within op v).mono (fun _ h _ => h) fun _ h _ => h ▸ Nat.zero_le _)
    | binary op left right =>
      exact (hp left (by simp [parts])).bind fun l _ => (hp right (by simp [parts])).bind fun r _ => .ofExcept
        ((binary_within op l r).mono (fun _ h _ => h) fun _ h _ => h)
    | cond test yes no =>
      refine (hp test (by simp [parts])).bind fun t _ => ?_
      split
      · exact (hp yes (by simp [parts])).mono id (fun _ => id) fun _ h henv => hpow (Nat.le_max_left _ _) (h henv)
      · exact (hp no (by simp [parts])).mono id (fun _ => id) fun _ h henv => hpow (Nat.le_max_right _ _) (h henv)
      · exact .throw fun _ => rfl
    | call name args =>
      have hargs := fun arg harg => (hp arg harg).mono id (fun _ => id)
        fun v h henv => hpow (caseDepth_le harg) (h henv)
      refine (values_obey hargs).bind fun vs hvs => (Function.call_obeys name vs).mono
        (fun h => by simp_all [isConstant]) (fun _ h _ => h) fun v h henv => ?_
      have hv := h (maxText * 3 ^ caseDepths args)
        (hpow (Nat.zero_le _) (by simp)) fun arg harg => hvs arg harg henv
      rwa [Nat.mul_assoc, ← Nat.pow_add] at hv

theorem evaluate_obeys (env : Env) (e : Expr) :
    (e.evaluate env).Obeys (e.isConstant = true) (fun cause => e.params = [] → cause.Filled)
      fun r => env.Bounded → ∀ v, r = .ready v → v.textSize ≤ maxText * 3 ^ e.caseDepth := by
  unfold evaluate
  split
  · next name names hparams => exact .throw fun h => nomatch hparams.symm.trans h
  · split
    · refine (value_obeys env e).bind fun v hv => .pure ?_
      rintro henv _ ⟨⟩
      exact hv henv
    · exact .pure nofun

end Expr

/-! ## Faults of an assembly -/

/-- The fault of an expression without parameters is not about a parameter. -/
theorem Assembly.evalAt_filled {a : Assembly} {p : Place} {f : Fault} (hparams : e.params = [])
    (h : (a.evalAt p e).1 = .error f) : f.isParam = false := by
  have hout := (Expr.evaluate_obeys (a.symbols.env p) e).outcome a.random
  rw [evalAt_outcome] at h
  cases hrun : ((e.evaluate (a.symbols.env p)).run.run a.random).1 with
  | ok v => rw [hrun] at h; cases h
  | error cause =>
    rw [hrun] at h hout
    cases h
    exact hout hparams

theorem Value.lowWord_filled (v : Value) (fault : Fault) (h : v.lowWord = .error fault) : fault.isParam = false := by
  unfold Value.lowWord at h
  split at h <;> cases h
  rfl

theorem Value.number_filled (v : Value) (fault : Fault) (h : v.number = .error fault) : fault.isParam = false := by
  unfold number at h
  split at h <;> cases h
  rfl

theorem branchByte_filled (target origin : UInt16) (fault : Fault) (h : branchByte target origin = .error fault) :
    fault.isParam = false := by
  unfold branchByte at h
  split at h <;> cases h
  rfl

end SpectrumAsm
