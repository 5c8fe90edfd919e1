/-
Lines read from recased texts.

Reading folded tokens gives the folded line, or a fault of the same code (`ofTokens_folds`), so the lines of a
recased text are those of the text up to the case of names (`ofSource_recased`).
-/
import SpectrumAsm.Proofs.RecasedSyntax

namespace SpectrumAsm

open List Text Stmt

/-! ## Words -/

namespace Text

theorem upperChar_toUpper (c : Char) : upperChar c.toUpper = upperChar c := by
  refine toUpper_invariant (fun n => ?_) c
  revert n
  decide

theorem upper_upcase (s : String) : upper (upcase s) = upper s := by
  unfold upper upcase
  rw [String.toList_ofList, flatMap_map]
  exact congrArg String.ofList (flatMap_congr fun c _ => upperChar_toUpper c)

theorem contains_dot_upcase (s : String) : (upcase s).toList.contains '.' = s.toList.contains '.' := by
  rw [contains_eq_mem, contains_eq_mem, decide_eq_decide]
  exact mem_upcase rfl

end Text

theorem SymbolRef.ofDotted_upcase (rooted : Bool) (name : String) :
    ofDotted rooted (upcase name) = ofDotted rooted name := by
  unfold ofDotted
  rw [upcase, String.toList_ofList, splitDots_map_toUpper, map_map]
  exact congrArg (SymbolRef.mk · rooted) (map_congr_left fun part _ => upcase_ofList_upper part)

theorem SymbolRef.parse_upcase (name : String) : parse (upcase name) = parse name := by
  obtain ⟨cs, rfl⟩ : ∃ cs, name = String.ofList cs := ⟨name.toList, String.ofList_toList.symm⟩
  have hplain (rooted : Bool) (cs : List Char) :
      ofDotted rooted (String.ofList (cs.map Char.toUpper)) = ofDotted rooted (String.ofList cs) := by
    rw [← upcase_ofList, ofDotted_upcase]
  rw [upcase_ofList]
  unfold parse
  rw [String.toList_ofList, String.toList_ofList]
  split
  · next rest hroot =>
    obtain ⟨c, cs, rfl, hc, hcs⟩ := map_eq_cons_iff.1 hroot
    obtain ⟨d, cs, rfl, hd, rfl⟩ := map_eq_cons_iff.1 hcs
    rw [(toUpper_eq_iff rfl).1 hc, (toUpper_eq_iff rfl).1 hd]
    exact hplain true cs
  · next hroot =>
    split
    · next rest => exact absurd rfl (hroot (rest.map Char.toUpper))
    · exact hplain false cs

theorem Keyword.parse?_upcase (word : String) : parse? (upcase word) = parse? word := by
  unfold parse?
  rw [downcase_upcase]

/-- Reading a word of the processor's vocabulary gives the same for the word in capital letters. -/
def Cpu.IgnoresCase {α : Type} (parse : String → Except Cpu.UnknownName α) : Prop :=
  ∀ word, (∃ v, parse word = .ok v ∧ parse (upcase word) = .ok v) ∨
    ∃ u u', parse word = .error u ∧ parse (upcase word) = .error u'

theorem Cpu.ignoresCase_lookupName {α : Type} (vocabulary : Cpu.Vocabulary) (table : List (String × α))
    {key : String → String} (hkey : ∀ word, key (upcase word) = key word) :
    Cpu.IgnoresCase fun word => Cpu.lookupName vocabulary table (key word) word := by
  intro word
  dsimp only
  rw [hkey]
  unfold Cpu.lookupName
  cases table.lookup (key word) with
  | some v => exact .inl ⟨v, rfl, rfl⟩
  | none => exact .inr ⟨_, _, rfl, rfl⟩

section
open Cpu

theorem ignoresCase_reg8 : IgnoresCase Reg8.parse := ignoresCase_lookupName _ _ upcase_upcase
theorem ignoresCase_halfIndex : IgnoresCase HalfIndex.parse := ignoresCase_lookupName _ _ upcase_upcase
theorem ignoresCase_special : IgnoresCase Special.parse := ignoresCase_lookupName _ _ upcase_upcase
theorem ignoresCase_pair : IgnoresCase Pair.parse := ignoresCase_lookupName _ _ upcase_upcase
theorem ignoresCase_index : IgnoresCase Index.parse := ignoresCase_lookupName _ _ upcase_upcase
theorem ignoresCase_condition : IgnoresCase Condition.parse := ignoresCase_lookupName _ _ upcase_upcase
theorem ignoresCase_model : IgnoresCase Model.parse := ignoresCase_lookupName _ _ upcase_upcase
theorem ignoresCase_mnemonic : IgnoresCase Mnemonic.parse := ignoresCase_lookupName _ _ upper_upcase

end

theorem Word.parse?_upcase (word : String) : parse? (upcase word) = parse? word := by
  unfold parse?
  rw [Keyword.parse?_upcase]
  rcases ignoresCase_mnemonic word with ⟨m, h, h'⟩ | ⟨u, u', h, h'⟩
  · rw [h, h']
  · rw [h, h']

theorem Operand.ofName?_upcase (name : String) : ofName? (upcase name) = ofName? name := by
  unfold ofName?
  simp only [sameName_upcase_left]
  rcases ignoresCase_reg8 name with ⟨v, h, h'⟩ | ⟨u, u', h, h'⟩
  · rw [h, h']
  rcases ignoresCase_halfIndex name with ⟨v, i, i'⟩ | ⟨u, u', i, i'⟩
  · rw [h, h', i, i']
  rcases ignoresCase_special name with ⟨v, j, j'⟩ | ⟨u, u', j, j'⟩
  · rw [h, h', i, i', j, j']
  rw [h, h', i, i', j, j']
  rcases ignoresCase_pair name with ⟨v, h, h'⟩ | ⟨u, u', h, h'⟩
  · rw [h, h']
  rcases ignoresCase_index name with ⟨v, i, i'⟩ | ⟨u, u', i, i'⟩
  · rw [h, h', i, i']
  rcases ignoresCase_condition name with ⟨v, j, j'⟩ | ⟨u, u', j, j'⟩
  · rw [h, h', i, i', j, j']
  · rw [h, h', i, i', j, j']

/-! ## Reading tokens -/

/-- Faults that tell the same, though not in the same words. -/
def SameCode (f g : Fault) : Prop := g.code = f.code

/-- Two outcomes: both are faults that tell the same, or one answer is the image of the other. -/
inductive OutcomeFolds {α β : Type} (φ : α → β) : Except Fault α → Except Fault β → Prop where
  | ok (v : α) : OutcomeFolds φ (.ok v) (.ok (φ v))
  | error {f g : Fault} (h : SameCode f g) : OutcomeFolds φ (.error f) (.error g)

namespace OutcomeFolds

variable {α β γ δ : Type} {φ : α → β} {ψ : γ → δ} {x : Except Fault α} {y : Except Fault β}

theorem map (h : OutcomeFolds φ x y) {f : α → γ} {g : β → δ}
    (hfg : ∀ v, g (φ v) = ψ (f v)) : OutcomeFolds ψ (x.map f) (y.map g) := by
  cases h with
  | ok v =>
    show OutcomeFolds ψ (.ok (f v)) (.ok (g (φ v)))
    rw [hfg]
    exact .ok (f v)
  | error h => exact .error h

theorem bind (h : OutcomeFolds φ x y) {f : α → Except Fault γ}
    {g : β → Except Fault δ} (hfg : ∀ v, OutcomeFolds ψ (f v) (g (φ v))) : OutcomeFolds ψ (x >>= f) (y >>= g) := by
  cases h with
  | ok v => exact hfg v
  | error h => exact .error h

theorem mapM {ι : α → β} {f : α → Except Fault γ} {g : β → Except Fault δ} (hfg : ∀ v, OutcomeFolds ψ (f v) (g (ι v)))
    (vs : List α) : OutcomeFolds (List.map ψ) (vs.mapM f) ((vs.map ι).mapM g) := by
  induction vs with
  | nil => exact .ok []
  | cons v vs ih =>
    rw [map_cons, mapM_cons, mapM_cons]
    exact (hfg v).bind fun w => ih.bind fun ws => .ok (w :: ws)

end OutcomeFolds

/-- Reading folded tokens gives a folded answer and leaves the folded rest. -/
def Parse.Folds {α β : Type} (φ : α → β) (p : Parse α) (q : Parse β) : Prop :=
  ∀ ts, OutcomeFolds (Prod.map φ (map Token.folded)) (p.run ts) (q.run (ts.map Token.folded))

namespace Parse.Folds

variable {α β γ δ : Type} {φ : α → β} {ψ : γ → δ} {p : Parse α} {q : Parse β}

theorem pure (v : α) : Folds φ (Pure.pure v) (Pure.pure (φ v)) := fun ts => .ok (v, ts)

theorem throw {f g : Fault} (h : SameCode f g) : Folds φ (throw f) (throw g) := fun _ => .error h

theorem bind (hp : p.Folds φ q) {f : α → Parse γ} {g : β → Parse δ} (hfg : ∀ v, (f v).Folds ψ (g (φ v))) :
    (p >>= f).Folds ψ (q >>= g) := by
  intro ts
  rw [StateT.run_bind, StateT.run_bind]
  exact (hp ts).bind fun x => hfg x.1 x.2

theorem bind_pure (hp : p.Folds φ q) {f : α → γ} {g : β → δ} (hfg : ∀ v, g (φ v) = ψ (f v)) :
    Folds ψ (do return f (← p)) (do return g (← q)) :=
  hp.bind fun v => by
    rw [hfg]
    exact .pure (f v)

theorem then_pure (hp : p.Folds φ q) {v : γ} {w : δ} (h : w = ψ v) :
    Folds ψ (p >>= fun _ => Pure.pure v) (q >>= fun _ => Pure.pure w) :=
  hp.bind fun _ => h ▸ .pure v

theorem get_bind {f : List Token → Parse α} {g : List Token → Parse β}
    (hfg : ∀ ts, (f ts).Folds φ (g (ts.map Token.folded))) : Folds φ (get >>= f) (get >>= g) :=
  fun ts => hfg ts ts

theorem set (ts : List Token) : Folds id (set ts) (set (ts.map Token.folded)) := fun _ => .ok ((), ts)

theorem ofExcept (h : OutcomeFolds φ x y) : Folds φ (ofExcept x) (ofExcept y) := by
  cases h with
  | ok v => exact .pure v
  | error h => exact .throw h

theorem ite (c : Prop) [Decidable c] {p' : Parse α} {q' : Parse β} (h : p.Folds φ q) (h' : p'.Folds φ q') :
    Folds φ (if c then p else p') (if c then q else q') := by
  split
  · exact h
  · exact h'

theorem run' (h : p.Folds φ q) (ts : List Token) : OutcomeFolds φ (p.run' ts) (q.run' (ts.map Token.folded)) := by
  refine (h ts).map fun x => ?_
  rfl

end Parse.Folds

namespace Parse

theorem folded_ident (name : String) : (TokenKind.ident name).folded = .ident (upcase name) := rfl

theorem folded_beq_punct (k : TokenKind) (p : Punct) : (k.folded == .punct p) = (k == .punct p) := by
  cases k <;> rfl

theorem next?_folds : next?.Folds (Option.map Token.folded) next? := by
  refine .get_bind fun ts => ?_
  cases ts with
  | nil => exact .pure none
  | cons t ts => exact (Folds.set ts).bind fun _ => .pure (some t)

theorem peek?_folds : peek?.Folds (Option.map TokenKind.folded) peek? := by
  refine .get_bind fun ts => ?_
  cases ts with
  | nil => exact .pure none
  | cons t ts => exact .pure (some t.kind)

theorem accept_folds (p : Punct) : (accept p).Folds id (accept p) := by
  refine .get_bind fun ts => ?_
  cases ts with
  | nil => exact .pure false
  | cons t ts =>
    simp only [map_cons, Token.folded, folded_beq_punct]
    exact .ite _ ((Folds.set ts).bind fun _ => .pure true) (.pure false)

theorem acceptBy_folds {α : Type} (meaning : Punct → Option α) : (acceptBy meaning).Folds id (acceptBy meaning) := by
  refine .get_bind fun ts => ?_
  obtain _ | ⟨⟨col, kind⟩, ts⟩ := ts
  · exact .pure none
  cases kind with
  | punct p =>
    have hfolded : (⟨col, .punct p⟩ :: ts : List Token).map Token.folded = ⟨col, .punct p⟩ :: ts.map Token.folded := rfl
    rw [hfolded]
    dsimp only
    cases meaning p with
    | none => exact .pure none
    | some a => exact (Folds.set ts).bind fun _ => .pure (some a)
  | _ => exact .pure none

theorem check_folds (p : Punct) : (check p).Folds id (check p) := by
  refine peek?_folds.bind fun k => ?_
  cases k with
  | none => exact .pure false
  | some k =>
    have hsame : (some k.folded == some (.punct p)) = (some k == some (.punct p)) := folded_beq_punct k p
    dsimp only [Option.map_some]
    rw [hsame]
    exact .pure _

theorem expect_folds (p : Punct) : (expect p).Folds id (expect p) := by
  refine .get_bind fun ts => ?_
  cases ts with
  | nil => exact .throw rfl
  | cons t ts =>
    simp only [map_cons, Token.folded, folded_beq_punct]
    exact .ite _ (.set ts) (.throw rfl)

theorem expectEnd_folds : expectEnd.Folds id expectEnd := by
  refine .get_bind fun ts => ?_
  cases ts with
  | nil => exact .pure ()
  | cons t ts => exact .throw rfl

theorem ident_folds : ident.Folds upcase ident := by
  refine next?_folds.bind fun t => ?_
  obtain _ | ⟨col, kind⟩ := t
  · exact .throw rfl
  · cases kind with
    | ident name => exact .pure name
    | _ => exact .throw rfl

end Parse

/-! ## Expressions -/

open Parse

theorem isReserved_upcase (name : String) : isReserved (upcase name) = isReserved name := by
  simp only [isReserved, sameName_upcase_left, contains_dot_upcase]

theorem Expr.ofName_upcase (name : String) : ofName (upcase name) = (ofName name).folded := by
  simp only [ofName, sameName_upcase_left, SymbolRef.ofDotted_upcase]
  split
  · rfl
  · split <;> rfl

/-- Reading expressions from folded tokens gives folded expressions, within a budget. -/
structure ExprParser.Folds (n : Nat) : Prop where
  expr : (parseExprWith n).Folds Expr.folded (parseExprWith n)
  tier : ∀ tier, (parseTier n tier).Folds Expr.folded (parseTier n tier)
  more : ∀ tier left, (parseMore n tier left).Folds Expr.folded (parseMore n tier left.folded)
  unary : (parseUnary n).Folds Expr.folded (parseUnary n)
  primary : (parsePrimary n).Folds Expr.folded (parsePrimary n)
  args : (parseArgs n).Folds (map Expr.folded) (parseArgs n)

namespace ExprParser.Folds

variable {n : Nat} (h : ExprParser.Folds n)
include h

theorem parseExprWith_succ : (parseExprWith (n + 1)).Folds Expr.folded (parseExprWith (n + 1)) := by
  refine (h.tier 0).bind fun test => (accept_folds _).bind fun question => .ite _ ?_ (.pure test)
  exact h.expr.bind fun yes => (expect_folds _).bind fun _ => h.expr.bind fun no => .pure (Expr.cond test yes no)

theorem parseTier_succ (tier : Nat) : (parseTier (n + 1) tier).Folds Expr.folded (parseTier (n + 1) tier) := by
  exact .ite _ ((h.tier (tier + 1)).bind fun left => h.more tier left) h.unary

theorem parseMore_succ (tier : Nat) (left : Expr) :
    (parseMore (n + 1) tier left).Folds Expr.folded (parseMore (n + 1) tier left.folded) := by
  refine (acceptBy_folds _).bind fun op => ?_
  cases op with
  | none => exact .pure left
  | some op => exact (h.tier (tier + 1)).bind fun right => h.more tier (.binary op left right)

theorem parseUnary_succ : (parseUnary (n + 1)).Folds Expr.folded (parseUnary (n + 1)) := by
  refine (acceptBy_folds _).bind fun op => ?_
  cases op with
  | none => exact h.primary
  | some op => exact h.unary.bind fun arg => .pure (Expr.unary op arg)

theorem parsePrimary_succ : (parsePrimary (n + 1)).Folds Expr.folded (parsePrimary (n + 1)) := by
  refine next?_folds.bind fun t => ?_
  obtain _ | ⟨col, kind⟩ := t
  · exact .throw rfl
  cases kind with
  | punct p =>
    cases p with
    | lparen | lbracket => exact h.expr.bind fun _ => (expect_folds _).then_pure rfl
    | dollar | period => exact .pure _
    | colonColon =>
      refine ident_folds.bind fun name => ?_
      rw [SymbolRef.ofDotted_upcase]
      exact .pure _
    | _ => exact .throw rfl
  | directive | comment | bad => exact .throw rfl
  | ident name =>
    simp only [Option.map_some, Token.folded, folded_ident, isReserved_upcase, Expr.ofName_upcase, downcase_upcase]
    refine .ite _ (.pure _) ?_
    refine (accept_folds _).bind fun called => .ite _ ((check_folds _).bind fun empty => ?_) (.pure _)
    refine .ite _ ((expect_folds _).then_pure rfl) (h.args.bind fun args => (expect_folds _).then_pure ?_)
    exact congrArg (Expr.call _) (Expr.renamedAll_eq_map ..).symm
  | _ => exact .pure _

theorem parseArgs_succ : (parseArgs (n + 1)).Folds (map Expr.folded) (parseArgs (n + 1)) := by
  refine h.expr.bind fun e => (accept_folds _).bind fun comma => .ite _ ?_ (.pure [e])
  exact h.args.bind fun es => .pure (e :: es)

end ExprParser.Folds

theorem exprParser_folds (n : Nat) : ExprParser.Folds n := by
  induction n with
  | zero => exact ⟨.throw rfl, fun _ => .throw rfl, fun _ _ => .throw rfl, .throw rfl, .throw rfl, .throw rfl⟩
  | succ n h =>
    exact ⟨h.parseExprWith_succ, h.parseTier_succ, h.parseMore_succ, h.parseUnary_succ, h.parsePrimary_succ,
      h.parseArgs_succ⟩

theorem parseExpr_folds : parseExpr.Folds Expr.folded parseExpr := by
  refine .get_bind fun ts => ?_
  rw [length_map]
  exact (exprParser_folds _).expr

theorem parseWholeExpr_folds (ts : List Token) :
    OutcomeFolds Expr.folded (parseWholeExpr ts) (parseWholeExpr (ts.map Token.folded)) :=
  (parseExpr_folds.bind fun e => expectEnd_folds.bind fun _ => .pure e).run' ts

theorem parseExprs_folds (n : Nat) : (parseExprs n).Folds (map Expr.folded) (parseExprs n) := by
  induction n with
  | zero => exact .throw rfl
  | succ n ih =>
    refine parseExpr_folds.bind fun e => (accept_folds _).bind fun comma => .ite _ ?_ (.pure [e])
    exact ih.bind fun es => .pure (e :: es)

theorem parseExprList_folds : parseExprList.Folds (map Expr.folded) parseExprList := by
  refine .get_bind fun ts => ?_
  cases ts with
  | nil => exact .pure []
  | cons t ts =>
    show Folds _ (parseExprs ((t :: ts).length + 1)) (parseExprs (((t :: ts).map Token.folded).length + 1))
    rw [length_map]
    exact parseExprs_folds _

/-! ## Operands -/

theorem isOpening_folded (k : TokenKind) : k.folded.isOpening = k.isOpening := by cases k <;> rfl

theorem isClosing_folded (k : TokenKind) : k.folded.isClosing = k.isClosing := by cases k <;> rfl

namespace Operand

theorem splitAt_folded (depth : Int) (ts : List Token) :
    splitAt depth (ts.map Token.folded) = (splitAt depth ts).map (map Token.folded) := by
  induction ts generalizing depth with
  | nil => rfl
  | cons t ts ih =>
    simp only [map_cons, splitAt, Token.folded, folded_beq_punct, isOpening_folded, isClosing_folded, ih]
    split
    · rfl
    · generalize splitAt _ ts = parts
      cases parts <;> rfl

theorem closesAtEnd_folded (depth : Nat) (ts : List Token) :
    closesAtEnd depth (ts.map Token.folded) = closesAtEnd depth ts := by
  induction ts generalizing depth with
  | nil => rfl
  | cons t ts ih =>
    simp [closesAtEnd, Token.folded, isOpening_folded, isClosing_folded, ih]

theorem folded_of_ofName? {name : String} {o : Operand} (h : ofName? name = some o) : o.folded = o := by
  unfold ofName? at h
  repeat' split at h
  all_goals first
    | cases h; rfl
    | cases h

theorem parseIndirect_folds (ts : List Token) :
    OutcomeFolds Operand.folded (parseIndirect ts) (parseIndirect (ts.map Token.folded)) := by
  have hmemory : OutcomeFolds Operand.folded ((parseWholeExpr ts).map .memory)
      ((parseWholeExpr (ts.map Token.folded)).map .memory) := (parseWholeExpr_folds ts).map fun _ => rfl
  unfold parseIndirect
  obtain _ | ⟨⟨col, kind⟩, _ | ⟨sign, rest⟩⟩ := ts
  · exact hmemory
  · cases kind with
    | ident name =>
      simp only [map_cons, map_nil, Token.folded, folded_ident, sameName_upcase_left]
      split
      · exact .ok _
      rcases ignoresCase_pair name with ⟨reg, h, h'⟩ | ⟨u, u', h, h'⟩
      · rw [h, h']
        exact .ok (viaPair reg)
      rcases ignoresCase_index name with ⟨reg, i, i'⟩ | ⟨u, u', i, i'⟩
      · rw [h, h', i, i']
        exact .ok (indexed reg none)
      · rw [h, h', i, i']
        exact hmemory
    | _ => exact hmemory
  · cases kind with
    | ident name =>
      simp only [map_cons, Token.folded, folded_ident]
      rcases ignoresCase_index name with ⟨reg, h, h'⟩ | ⟨u, u', h, h'⟩
      · rw [h, h']
        have hdisplaced (direction : Sign) : OutcomeFolds Operand.folded
            ((parseWholeExpr rest).map fun e => indexed reg (some (direction, e)))
            ((parseWholeExpr (rest.map Token.folded)).map fun e => indexed reg (some (direction, e))) :=
          (parseWholeExpr_folds rest).map fun _ => rfl
        obtain ⟨col, kind⟩ := sign
        cases kind with
        | punct p =>
          cases p with
          | plus => exact hdisplaced .plus
          | minus => exact hdisplaced .minus
          | _ => exact .error rfl
        | _ => exact .error rfl
      · rw [h, h']
        exact hmemory
    | _ => exact hmemory

theorem parsePlain_folds (ts : List Token) :
    OutcomeFolds Operand.folded (parsePlain ts) (parsePlain (ts.map Token.folded)) := by
  cases ts with
  | nil => exact .error rfl
  | cons first rest =>
    have hends := closesAtEnd_folded 0 (first :: rest)
    simp only [parsePlain, map_cons, Token.folded, folded_beq_punct] at hends ⊢
    rw [hends, ← map_dropLast]
    split
    · exact parseIndirect_folds rest.dropLast
    · exact (parseWholeExpr_folds _).map fun _ => rfl

theorem parse_folds (ts : List Token) : OutcomeFolds Operand.folded (parse ts) (parse (ts.map Token.folded)) := by
  have hplain := parsePlain_folds ts
  obtain _ | ⟨⟨col, kind⟩, rest⟩ := ts
  · exact hplain
  cases kind with
  | ident name =>
    cases rest with
    | nil =>
      simp only [parse, map_cons, map_nil, Token.folded, folded_ident, ofName?_upcase]
      cases hname : ofName? name with
      | none => exact hplain
      | some operand =>
        have hok : OutcomeFolds Operand.folded (.ok operand) (.ok operand.folded) := .ok operand
        rwa [folded_of_ofName? hname] at hok
    | cons t rest => exact hplain
  | param name =>
    cases rest with
    | nil => exact .ok (param name)
    | cons t rest => exact hplain
  | _ => exact hplain

theorem parseList_folds (ts : List Token) :
    OutcomeFolds (map Operand.folded) (parseList ts) (parseList (ts.map Token.folded)) := by
  unfold parseList
  rw [isEmpty_map]
  split
  · exact .ok []
  · rw [split, split, splitAt_folded]
    exact .mapM parse_folds _

theorem parseArgs_folds (ts : List Token) :
    OutcomeFolds (map Operand.folded) (Operand.parseArgs ts) (Operand.parseArgs (ts.map Token.folded)) := by
  unfold Operand.parseArgs
  rw [isEmpty_map]
  split
  · exact .ok []
  · rw [split, split, splitAt_folded]
    refine .mapM (fun part => ?_) _
    rw [isEmpty_map]
    split
    · exact .ok _
    · exact parse_folds part

end Operand

/-! ## Statements -/

theorem takeRest_folds : takeRest.Folds (map Token.folded) takeRest := fun ts => .ok (ts, [])

theorem takeGroup_folds (depth : Nat) (ts : List Token) :
    OutcomeFolds (Prod.map (map Token.folded) (map Token.folded)) (takeGroup depth ts)
      (takeGroup depth (ts.map Token.folded)) := by
  induction ts generalizing depth with
  | nil => exact .error rfl
  | cons t ts ih =>
    have hinside (depth : Nat) : OutcomeFolds (Prod.map (map Token.folded) (map Token.folded))
        ((takeGroup depth ts).map fun x => (t :: x.1, x.2))
        ((takeGroup depth (ts.map Token.folded)).map fun x => (t.folded :: x.1, x.2)) := (ih depth).map fun _ => rfl
    unfold takeGroup
    simp only [map_cons, Token.folded, isOpening_folded, isClosing_folded, folded_beq_punct]
    split
    · exact hinside _
    split
    · split
      · split
        · exact .ok ([], ts)
        · exact .error rfl
      · exact hinside _
    · exact hinside _

theorem parseAfterComma_folds : parseAfterComma.Folds (Option.map Expr.folded) parseAfterComma :=
  (accept_folds _).bind fun _ => .ite _ (parseExpr_folds.bind fun e => .pure (some e)) (.pure none)

theorem parseOptionalExpr_folds : parseOptionalExpr.Folds (Option.map Expr.folded) parseOptionalExpr := by
  refine .get_bind fun ts => ?_
  rw [isEmpty_map]
  exact .ite _ (.pure none) (parseExpr_folds.bind fun e => .pure (some e))

theorem parseModelName_folds : parseModelName.Folds upcase parseModelName := by
  refine next?_folds.bind fun t => ?_
  obtain _ | ⟨col, kind⟩ := t
  · exact .throw rfl
  · cases kind with
    | ident name => exact .pure name
    | number lexeme value => exact .pure lexeme
    | _ => exact .throw rfl

theorem parseSymbol_folds : parseSymbol.Folds id parseSymbol := by
  refine (accept_folds _).bind fun rooted => ident_folds.bind fun name => ?_
  rw [SymbolRef.ofDotted_upcase]
  exact .pure _

theorem parsePragma?_folds (k : Keyword) : (parsePragma? k).Folds (Option.map Pragma.folded) (parsePragma? k) := by
  cases k with
  | org | ent | xent | disp | equ | var | defm | defn | defc | defh | defs | defg | defgx | error =>
    exact parseExpr_folds.bind_pure fun _ => rfl
  | defb | defw | trace | tracehex => exact parseExprList_folds.bind_pure fun _ => rfl
  | align | rndseed => exact parseOptionalExpr_folds.bind_pure fun _ => rfl
  | model => exact parseModelName_folds.bind_pure fun _ => rfl
  | skip => exact parseExpr_folds.bind fun target => parseAfterComma_folds.bind_pure fun _ => rfl
  | fillb | fillw =>
    exact parseExpr_folds.bind fun count => (expect_folds _).bind fun _ => parseExpr_folds.bind_pure fun _ => rfl
  | includebin =>
    refine parseExpr_folds.bind fun file => parseAfterComma_folds.bind fun offset => ?_
    cases offset with
    | none => exact .pure _
    | some offset => exact parseAfterComma_folds.bind_pure fun _ => rfl
  | _ => exact .pure none

theorem parseNames_folds (n : Nat) : (parseNames n).Folds (map upcase) (parseNames n) := by
  induction n with
  | zero => exact .throw rfl
  | succ n ih =>
    exact ident_folds.bind fun name => (accept_folds _).bind fun _ => .ite _ (ih.bind_pure fun _ => rfl) (.pure [name])

theorem parseNameList_folds : parseNameList.Folds (map upcase) parseNameList := by
  refine .get_bind fun ts => ?_
  rw [length_map]
  exact parseNames_folds _

theorem parseParams_folds : parseParams.Folds (map upcase) parseParams := by
  refine (accept_folds _).bind fun _ => .ite _ ((check_folds _).bind fun _ => ?_) (.pure [])
  exact .ite _ ((expect_folds _).then_pure rfl) (parseNameList_folds.bind fun _ => (expect_folds _).then_pure rfl)

theorem isKeyword_folded (k : Keyword) (kind : Option TokenKind) :
    isKeyword k (kind.map TokenKind.folded) = isKeyword k kind := by
  obtain _ | kind := kind
  · rfl
  · cases kind with
    | ident name => exact congrArg (· == some k) (Keyword.parse?_upcase name)
    | _ => rfl

theorem expectKeyword_folds (k : Keyword) : (expectKeyword k).Folds id (expectKeyword k) := by
  refine .get_bind fun ts => ?_
  cases ts with
  | nil => exact .throw rfl
  | cons t ts =>
    have hsame : isKeyword k (some t.folded.kind) = isKeyword k (some t.kind) := isKeyword_folded k (some t.kind)
    simp only [map_cons, hsame]
    exact .ite _ (.set ts) (.throw rfl)

theorem parseFor_folds : parseFor.Folds Statement.folded parseFor := by
  refine ident_folds.bind fun var => (accept_folds _).bind fun assigned => ?_
  cases assigned
  case' false => refine (expect_folds _).bind fun _ => ?_
  -- Past the sign of the assignment both go on alike.
  all_goals
    refine parseExpr_folds.bind fun first => (expectKeyword_folds _).bind fun _ => ?_
    refine parseExpr_folds.bind fun last => peek?_folds.bind fun kind => ?_
    rw [isKeyword_folded]
    exact .ite _ (next?_folds.bind fun _ => parseExpr_folds.bind_pure fun _ => rfl) (.pure _)

theorem parseStatement_folds (k : Keyword) : (parseStatement k).Folds Statement.folded (parseStatement k) := by
  cases k with
  | ifTrue | elseIf | loop | whileTrue | untilTrue => exact parseExpr_folds.bind_pure fun _ => rfl
  | ifUsed | ifUnused => exact parseSymbol_folds.bind_pure fun _ => rfl
  | forEach => exact parseFor_folds
  | macroDef => exact parseParams_folds.bind_pure fun _ => rfl
  | locals =>
    refine .get_bind fun ts => ?_
    rw [isEmpty_map]
    exact .ite _ (.pure (Statement.locals [])) (parseNameList_folds.bind_pure fun _ => rfl)
  | moduleDef =>
    refine peek?_folds.bind fun kind => ?_
    obtain _ | kind := kind
    · exact .pure _
    · cases kind with
      | ident name => exact ident_folds.bind_pure fun _ => rfl
      | _ => exact .pure (Statement.moduleDef none)
  | otherwise | endIf | endLoop | endWhile | repeatBody | endFor | breakLoop | continueLoop | endMacro | proc | endProc
  | endModule | structDef | endStruct => exact .pure _
  | _ => exact .throw rfl

/-! ## Lines -/

theorem parseWord_folds (word : Word) : (parseWord word).Folds folded (parseWord word) := by
  cases word with
  | mnemonic m =>
    exact takeRest_folds.bind fun ts => (Folds.ofExcept (Operand.parseList_folds ts)).bind_pure fun _ => rfl
  | keyword k =>
    refine (parsePragma?_folds k).bind fun pragma => ?_
    cases pragma with
    | some pragma => exact expectEnd_folds.then_pure rfl
    | none => exact (parseStatement_folds k).bind fun _ => expectEnd_folds.then_pure rfl

theorem parseDirective_folds (name : String) : (parseDirective name).Folds folded (parseDirective name) := by
  have hended {s t : Stmt} (h : t = s.folded) := expectEnd_folds.then_pure h
  unfold parseDirective
  split
  · exact ident_folds.bind fun _ => hended rfl
  · exact ident_folds.bind fun _ => hended rfl
  · exact ident_folds.bind fun _ => hended rfl
  · exact ident_folds.bind fun _ => hended rfl
  · exact parseExpr_folds.bind fun _ => hended rfl
  · exact parseModelName_folds.bind fun _ => hended rfl
  · exact parseModelName_folds.bind fun _ => hended rfl
  · exact hended rfl
  · exact hended rfl
  · refine next?_folds.bind fun t => ?_
    obtain _ | ⟨col, kind⟩ := t
    · exact .throw rfl
    · cases kind with
      | text path => exact hended rfl
      | _ => exact .throw rfl
  · exact .throw rfl

theorem parseInvocation_folds (name : String) :
    (parseInvocation name).Folds folded (parseInvocation (upcase name)) := by
  refine (expect_folds _).bind fun _ => .get_bind fun ts => ?_
  refine (Folds.ofExcept (takeGroup_folds 0 ts)).bind fun group => ?_
  obtain ⟨inner, rest⟩ := group
  refine (Folds.set rest).bind fun _ => expectEnd_folds.bind fun _ => ?_
  exact (Folds.ofExcept (Operand.parseArgs_folds inner)).bind_pure fun _ => rfl

theorem parseField_folds (name : Option String) : (parseField name).Folds folded (parseField (name.map upcase)) := by
  refine next?_folds.bind fun t => ?_
  obtain _ | ⟨col, kind⟩ := t
  · exact .throw rfl
  cases kind with
  | ident word =>
    simp only [Option.map_some, Token.folded, folded_ident, Word.parse?_upcase]
    cases Word.parse? word with
    | none => exact .throw rfl
    | some word =>
      cases word with
      | mnemonic m => exact .throw rfl
      | keyword k =>
        refine (parsePragma?_folds k).bind fun pragma => ?_
        cases pragma with
        | none => exact .throw rfl
        | some pragma => exact expectEnd_folds.then_pure rfl
  | _ => exact .throw rfl

/-- The label and the statement of a line in capital letters. -/
def foldedParts : Option String × Option Stmt → Option String × Option Stmt :=
  Prod.map (Option.map upcase) (Option.map folded)

theorem parseLabelled_folds (label : String) :
    (parseLabelled label).Folds foldedParts (parseLabelled (upcase label)) := by
  refine next?_folds.bind fun t => ?_
  obtain _ | ⟨col, kind⟩ := t
  · exact .pure (some label, none)
  cases kind with
  | ident name =>
    simp only [Option.map_some, Token.folded, folded_ident, Word.parse?_upcase]
    cases Word.parse? name with
    | some word => exact (parseWord_folds word).bind_pure fun _ => rfl
    | none =>
      exact (check_folds _).bind fun _ => .ite _ ((parseInvocation_folds name).bind_pure fun _ => rfl) (.throw rfl)
  | _ => exact .throw rfl

theorem parseNamed_folds (name : String) : (parseNamed name).Folds foldedParts (parseNamed (upcase name)) := by
  refine (accept_folds _).bind fun _ => .ite _ (parseLabelled_folds name) ?_
  rw [Word.parse?_upcase]
  cases Word.parse? name with
  | some word => exact (parseWord_folds word).bind_pure fun _ => rfl
  | none =>
    refine peek?_folds.bind fun kind => ?_
    obtain _ | kind := kind
    · exact .pure (some name, none)
    cases kind with
    | punct p =>
      cases p with
      | lparen => exact (parseInvocation_folds name).bind_pure fun _ => rfl
      | eq | colonEq => exact next?_folds.bind fun _ => parseExpr_folds.bind fun _ => expectEnd_folds.then_pure rfl
      | arrow => exact next?_folds.bind fun _ => (parseField_folds (some name)).bind_pure fun _ => rfl
      | _ => exact parseLabelled_folds name
    | _ => exact parseLabelled_folds name

theorem parseLine_folds : parseLine.Folds foldedParts parseLine := by
  refine next?_folds.bind fun t => ?_
  obtain _ | ⟨col, kind⟩ := t
  · exact .pure (none, none)
  cases kind with
  | directive name => exact (parseDirective_folds name).bind_pure fun _ => rfl
  | ident name => exact parseNamed_folds name
  | punct p =>
    cases p with
    | arrow => exact (parseField_folds none).bind_pure fun _ => rfl
    | _ => exact .throw rfl
  | _ => exact .throw rfl

namespace SourceLine

theorem commentOf_folded (ts : List Token) : commentOf (ts.map Token.folded) = (commentOf ts).map upcase := by
  unfold commentOf
  rw [findSome?_map, map_findSome?]
  congr 1
  funext ⟨col, kind⟩
  cases kind <;> rfl

theorem badToken?_folded (ts : List Token) : badToken? (ts.map Token.folded) = (badToken? ts).map Token.folded := by
  unfold badToken?
  rw [find?_map]
  congr 2
  funext ⟨col, kind⟩
  cases kind <;> rfl

theorem isComment_folded (k : TokenKind) : k.folded.isComment = k.isComment := by cases k <;> rfl

/-- Folded tokens make up the folded line. -/
theorem ofTokens_folds (pos : Position) (ts : List Token) :
    OutcomeFolds (Option.map SourceLine.folded) (ofTokens pos ts) (ofTokens pos (ts.map Token.folded)) := by
  have hfiltered : (ts.map Token.folded).filter (fun t => !t.kind.isComment) =
      (ts.filter fun t => !t.kind.isComment).map Token.folded := by
    rw [filter_map]
    simp [Function.comp_def, Token.folded, isComment_folded]
  unfold ofTokens
  rw [badToken?_folded]
  cases badToken? ts with
  | some t => exact .error rfl
  | none =>
    rw [hfiltered, commentOf_folded]
    refine (parseLine_folds.run' _).bind fun parts => ?_
    obtain ⟨label, stmt⟩ := parts
    simp only [foldedParts, Prod.map_apply, Option.isNone_map]
    split
    · exact .ok none
    · exact .ok (some _)

theorem forall₂_map_eq_iff {α β : Type} {f : α → β} {xs ys : List α} :
    Forall₂ (fun x y => f y = f x) xs ys ↔ ys.map f = xs.map f := by
  rw [eq_comm, ← forall₂_eq_eq_eq, forall₂_map_left_iff, forall₂_map_right_iff]
  exact ⟨fun h => h.imp fun _ _ => Eq.symm, fun h => h.imp fun _ _ => Eq.symm⟩

/-- The line and the code of a fault in the source. -/
def faultCode (x : Nat × Fault) : Nat × String := (x.1, x.2.code)

theorem ofTokenLines_folded (file n : Nat) (tss : List (List Token)) :
    (ofTokenLines file n (tss.map (map Token.folded))).1 = (ofTokenLines file n tss).1.map SourceLine.folded ∧
      (ofTokenLines file n (tss.map (map Token.folded))).2.map faultCode =
        (ofTokenLines file n tss).2.map faultCode := by
  induction tss generalizing n with
  | nil => exact ⟨rfl, rfl⟩
  | cons ts tss ih =>
    obtain ⟨hlines, hfaults⟩ := ih (n + 1)
    have hline := ofTokens_folds ⟨file, n⟩ ts
    rw [map_cons, ofTokenLines, ofTokenLines]
    generalize ofTokens ⟨file, n⟩ ts = x at hline
    generalize ofTokens ⟨file, n⟩ (ts.map Token.folded) = y at hline
    cases hline with
    | error h => exact ⟨hlines, congrArg₂ cons (Prod.ext rfl h) hfaults⟩
    | ok line =>
      cases line with
      | none => exact ⟨hlines, hfaults⟩
      | some line => exact ⟨congrArg (line.folded :: ·) hlines, hfaults⟩

/-- The same lines, up to the case of names, and the same lines that cannot be read. -/
structure SameLines (x y : List SourceLine × List (Nat × Fault)) : Prop where
  lines : y.1.map SourceLine.folded = x.1.map SourceLine.folded
  faults : y.2.map faultCode = x.2.map faultCode

/-- The lines of a recased text are those of the text up to the case of names, and the same lines cannot be
read. -/
theorem ofSource_recased {s t : String} (h : Recased s t) (file : Nat) :
    SameLines (ofSource file s) (ofSource file t) := by
  have hlexed : (Lexer.lexSource t).map (map Token.folded) = (Lexer.lexSource s).map (map Token.folded) := by
    unfold Lexer.lexSource
    rw [map_map, map_map, ← forall₂_map_eq_iff]
    exact h.imp fun _ _ => Lexer.lexLine_recased
  unfold ofSource
  obtain ⟨hlines, hfaults⟩ := ofTokenLines_folded file 0 (Lexer.lexSource s)
  obtain ⟨hlines', hfaults'⟩ := ofTokenLines_folded file 0 (Lexer.lexSource t)
  refine ⟨?_, ?_⟩
  · rw [← hlines, ← hlines', hlexed]
  · rw [← hfaults, ← hfaults', hlexed]

end SourceLine

end SpectrumAsm
