/-
The brackets of operands.

What is read as an operand has its brackets matched, kind by kind. There is one exception: the parenthesis that
makes an operand an indirection is paired with the last token by counting alone, so `]` may stand there for `)`.
-/
import SpectrumAsm.Instruction.Encode
import SpectrumAsm.Operand.Parser

namespace SpectrumAsm

open List Parse Instruction

variable {α β : Type} {p : Punct} {ps qs stack : List Punct} {t : Token} {ts rest : List Token} {n : Nat} {o : Operand}

/-- The brackets left to be closed behind a token, the innermost one first; none if it closes one of another kind. -/
def TokenKind.brackets (stack : List Punct) : TokenKind → Option (List Punct)
  | punct .lparen => some (.rparen :: stack)
  | punct .lbracket => some (.rbracket :: stack)
  | punct .rparen => if stack.head? = some .rparen then some stack.tail else none
  | punct .rbracket => if stack.head? = some .rbracket then some stack.tail else none
  | _ => some stack

def openBrackets (stack : List Punct) (ts : List Token) : Option (List Punct) :=
  ts.foldlM (fun stack t => t.kind.brackets stack) stack

/-- Brackets are properly nested, and each is closed by the bracket of its own kind. -/
def Matched (ts : List Token) : Prop := openBrackets [] ts = some []

theorem openBrackets_cons (stack : List Punct) (t : Token) (ts : List Token) :
    openBrackets stack (t :: ts) = (t.kind.brackets stack).bind (openBrackets · ts) := foldlM_cons

/-! ## Expressions -/

/-- What is read closes the brackets `ps`, and all that it opens. -/
def Parse.Closes (ps : List Punct) (x : Parse α) : Prop := ∀ ⦃ts rest : List Token⦄ ⦃v : α⦄,
  x.run ts = .ok (v, rest) → ∀ stack, openBrackets (ps ++ stack) ts = openBrackets stack rest

namespace Parse.Closes

theorem pure (v : α) : Closes [] (Pure.pure v : Parse α) := by
  rintro ts _ _ ⟨⟩ stack
  rfl

theorem throw (fault : Fault) : Closes ps (throw fault : Parse α) := nofun

theorem bind {x : Parse α} {f : α → Parse β} (hx : x.Closes ps) (hf : ∀ v, (f v).Closes qs) :
    (x >>= f).Closes (ps ++ qs) := by
  intro ts rest v h stack
  rw [StateT.run_bind] at h
  cases hrun : x.run ts <;> rw [hrun] at h
  · cases h
  · rw [append_assoc, hx hrun, hf _ h]

theorem get_bind {f : List Token → Parse α} (hf : ∀ ts, (f ts).Closes ps) : (get >>= f).Closes ps :=
  fun ts _ _ h => hf ts h

theorem expect (ps : List Punct) (hp : ∀ stack, (TokenKind.punct p).brackets (ps ++ stack) = some stack) :
    (expect p).Closes ps := by
  rintro (_ | ⟨t, ts⟩) rest v h stack
  · cases h
  change StateT.run (if t.kind == .punct p then set ts else _) _ = _ at h
  split at h <;> cases h
  next hk => rw [openBrackets_cons, beq_iff_eq.1 hk, hp, Option.bind_some]

/-- A mark is taken that opens the brackets `qs`, or it is not there. -/
theorem accept_bind {f : Bool → Parse β} (qs : List Punct)
    (hp : ∀ stack, (TokenKind.punct p).brackets stack = some (qs ++ stack)) (hyes : (f true).Closes (qs ++ ps))
    (hno : (f false).Closes ps) : (accept p >>= f).Closes ps := by
  rintro (_ | ⟨t, ts⟩) rest v h stack
  · exact hno h stack
  change StateT.run
    ((if t.kind == .punct p then do set ts; return true else return false : Parse Bool) >>= f) _ = _ at h
  split at h
  · next hk =>
    rw [openBrackets_cons, beq_iff_eq.1 hk, hp, Option.bind_some, ← append_assoc]
    exact hyes h stack
  · exact hno h stack

theorem acceptBy {meaning : Punct → Option α}
    (hp : ∀ p v stack, meaning p = some v → (TokenKind.punct p).brackets stack = some stack) :
    (acceptBy meaning).Closes [] := by
  rintro (_ | ⟨⟨col, kind⟩, ts⟩) rest v h stack
  · cases h
    rfl
  cases kind with
  | punct p =>
    cases hm : meaning p <;>
      simp only [Parse.acceptBy, StateT.run_bind, StateT.run_get, pure_bind, hm] at h <;> cases h
    · rfl
    · rw [openBrackets_cons, hp p _ _ hm]
      rfl
  | _ =>
    cases h
    rfl

end Parse.Closes

/-- Reading expressions closes all brackets that it opens, within a budget. -/
structure ExprParser.Closes (n : Nat) : Prop where
  expr : (parseExprWith n).Closes []
  tier : ∀ tier, (parseTier n tier).Closes []
  more : ∀ tier left, (parseMore n tier left).Closes []
  unary : (parseUnary n).Closes []
  primary : (parsePrimary n).Closes []
  args : (parseArgs n).Closes []

theorem parsePrimary_closes (h : ExprParser.Closes n) : (parsePrimary (n + 1)).Closes [] := by
  rintro (_ | ⟨⟨col, kind⟩, ts⟩) rest v hrun stack
  · cases hrun
  have hclose (p : Punct) (hp : ∀ stack, (TokenKind.punct p).brackets (p :: stack) = some stack) (e : Expr) :
      Closes [p] (do expect p; return e) := (Closes.expect [p] hp).bind fun _ => .pure e
  cases kind with
  | punct p =>
    cases p with
    | lparen => exact h.expr.bind (hclose .rparen fun _ => rfl) hrun stack
    | lbracket => exact h.expr.bind (hclose .rbracket fun _ => rfl) hrun stack
    | colonColon =>
      obtain _ | ⟨⟨col, kind⟩, ts⟩ := ts
      · cases hrun
      · cases kind with
        | ident name =>
          cases hrun
          rfl
        | _ => cases hrun
    | dollar | period =>
      cases hrun
      rfl
    | _ => cases hrun
  | ident name =>
    have hcheck : (check .rparen).Closes [] := by
      rintro ts rest v ⟨⟩ stack
      rfl
    have hread {x : Parse Expr} (hx : x.Closes []) (hrun : x.run ts = .ok (v, rest)) :
      openBrackets stack (⟨col, .ident name⟩ :: ts) = openBrackets stack rest := hx hrun stack
    change StateT.run (if isReserved name then _ else accept .lparen >>= _) ts = _ at hrun
    split at hrun
    · exact hread (.pure _) hrun
    refine hread (.accept_bind [.rparen] (fun _ => rfl) (hcheck.bind fun empty => ?_) (.pure _)) hrun
    cases empty with
    | true => exact hclose .rparen (fun _ => rfl) _
    | false => exact h.args.bind fun _ => hclose .rparen (fun _ => rfl) _
  | directive | comment | bad => cases hrun
  | _ =>
    cases hrun
    rfl

theorem exprParser_closes (n : Nat) : ExprParser.Closes n := by
  induction n with
  | zero => exact ⟨.throw _, fun _ => .throw _, fun _ _ => .throw _, .throw _, .throw _, .throw _⟩
  | succ n h =>
    refine ⟨?_, fun tier => ?_, fun tier left => ?_, ?_, parsePrimary_closes h, ?_⟩
    · refine (h.tier 0).bind fun test => .accept_bind [] (fun _ => rfl) ?_ (.pure test)
      exact h.expr.bind fun yes => (Closes.expect [] fun _ => rfl).bind fun _ => h.expr.bind fun no => .pure _
    · unfold parseTier
      split
      · exact (h.tier (tier + 1)).bind fun left => h.more tier left
      · exact h.unary
    · refine (Closes.acceptBy fun p op stack hop => ?_).bind fun op => ?_
      · unfold BinaryOp.ofPunct? at hop
        split at hop <;> first | rfl | cases hop
      · cases op with
        | none => exact .pure left
        | some op => exact (h.tier (tier + 1)).bind fun right => h.more tier _
    · refine (Closes.acceptBy fun p op stack hop => ?_).bind fun op => ?_
      · unfold UnaryOp.ofPunct? at hop
        split at hop <;> first | rfl | cases hop
      · cases op with
        | none => exact h.primary
        | some op => exact h.unary.bind fun arg => .pure _
    · exact h.expr.bind fun e => .accept_bind [] (fun _ => rfl) (h.args.bind fun es => .pure _) (.pure _)

theorem parseExpr_closes : parseExpr.Closes [] := .get_bind fun _ => (exprParser_closes _).expr

theorem parseWholeExpr_closes {e : Expr} (h : parseWholeExpr ts = .ok e) (stack : List Punct) :
    openBrackets stack ts = some stack := by
  unfold parseWholeExpr at h
  rw [StateT.run'_eq, StateT.run_bind] at h
  rcases hrun : parseExpr.run ts with fault | ⟨v, _ | ⟨t, rest⟩⟩ <;> rw [hrun] at h
  · cases h
  · exact parseExpr_closes hrun stack
  · cases h

/-! ## Operands -/

namespace Operand

/-- A parenthesis opens at the first token, and what matches it is the last one, the bracket `close`. -/
def Enclosed (close : Punct) (ts : List Token) : Prop := ∃ first inner last, ts = first :: (inner ++ [last]) ∧
  first.kind = .punct .lparen ∧ last.kind = .punct close ∧ Matched inner

theorem closesAtEnd_matched {stack' : List Punct} (h : openBrackets stack ts = some stack') (rest : List Token) :
    closesAtEnd (stack.length + 1) (ts ++ rest) = closesAtEnd (stack'.length + 1) rest := by
  induction ts generalizing stack with
  | nil =>
    cases h
    rfl
  | cons t ts ih =>
    obtain ⟨col, kind⟩ := t
    rw [openBrackets_cons] at h
    obtain ⟨next, ht, h⟩ := Option.bind_eq_some_iff.1 h
    rw [cons_append, ← ih h]
    cases kind with
    | punct p =>
      cases p with
      | rparen | rbracket =>
        obtain ⟨hhead, ⟨⟩⟩ := Option.ite_none_right_eq_some.1 ht
        obtain ⟨_, rfl⟩ := head?_eq_some_iff.1 hhead
        rfl
      | _ =>
        cases ht
        rfl
    | _ =>
      cases ht
      rfl

theorem parseIndirect_closes (h : parseIndirect ts = .ok o) :
    isIndirect o = true ∧ ∀ stack, openBrackets stack ts = some stack := by
  have hwhole {ts : List Token} {f : Expr → Operand} (h : (parseWholeExpr ts).map f = .ok o)
      (hf : ∀ e, isIndirect (f e) = true) : isIndirect o = true ∧ ∀ stack, openBrackets stack ts = some stack := by
    cases he : parseWholeExpr ts <;> rw [he] at h <;> cases h
    exact ⟨hf _, parseWholeExpr_closes he⟩
  unfold parseIndirect at h
  dsimp only at h
  split at h
  · split at h
    · cases h
      exact ⟨rfl, fun _ => rfl⟩
    · split at h
      · cases h
        exact ⟨rfl, fun _ => rfl⟩
      · cases h
        exact ⟨rfl, fun _ => rfl⟩
      · exact hwhole h fun _ => rfl
  · next sign rest =>
    obtain ⟨col, kind⟩ := sign
    split at h
    · dsimp only at h
      split at h
      · exact (hwhole h fun _ => rfl :)
      · exact (hwhole h fun _ => rfl :)
      · cases h
    · exact hwhole h fun _ => rfl
  · exact hwhole h fun _ => rfl

theorem Enclosed.closesAtEnd (h : Enclosed .rparen (t :: rest) ∨ Enclosed .rbracket (t :: rest)) :
    t.kind = .punct .lparen ∧ closesAtEnd 0 (t :: rest) = true := by
  rcases h with ⟨_, inner, last, ⟨⟩, hfirst, hlast, hinner⟩ | ⟨_, inner, last, ⟨⟩, hfirst, hlast, hinner⟩
  all_goals
    refine ⟨hfirst, ?_⟩
    rw [closesAtEnd, hfirst]
    refine (closesAtEnd_matched hinner [last]).trans ?_
    rw [closesAtEnd, hlast]
    rfl

theorem parsePlain_brackets (h : parsePlain ts = .ok o) : (Matched ts ∨ Enclosed .rbracket ts) ∧
    (isIndirect o = true ↔ Enclosed .rparen ts ∨ Enclosed .rbracket ts) := by
  obtain _ | ⟨first, rest⟩ := ts
  · cases h
  dsimp only [parsePlain] at h
  split at h
  · next hends =>
    rw [Bool.and_eq_true, beq_iff_eq] at hends
    obtain ⟨hfirst, hends⟩ := hends
    obtain ⟨hindirect, hinner⟩ := parseIndirect_closes h
    rw [closesAtEnd, hfirst] at hends
    rcases eq_nil_or_concat rest with rfl | ⟨inner, ⟨col, kind⟩, rfl⟩
    · cases hends
    rw [concat_eq_append] at hends hinner ⊢
    rw [dropLast_concat] at hinner
    have hlast := (closesAtEnd_matched (hinner []) [⟨col, kind⟩]).symm.trans hends
    have hspans {close : Punct} (hkind : kind = .punct close) :
        Enclosed close (first :: (inner ++ [⟨col, kind⟩])) := ⟨first, inner, _, rfl, hfirst, hkind, hinner []⟩
    cases kind with
    | punct p =>
      cases p with
      | rparen =>
        refine ⟨.inl ?_, iff_of_true hindirect (.inl (hspans rfl))⟩
        rw [Matched, openBrackets_cons, hfirst]
        refine (foldlM_append ..).trans ?_
        rw [show foldlM _ _ inner = _ from hinner [.rparen]]
        rfl
      | rbracket => exact ⟨.inr (hspans rfl), iff_of_true hindirect (.inr (hspans rfl))⟩
      | _ => cases hlast
    | _ => cases hlast
  · next hends =>
    cases he : parseWholeExpr (first :: rest) <;> rw [he] at h <;> cases h
    refine ⟨.inl (parseWholeExpr_closes he []), iff_of_false Bool.false_ne_true fun h => hends ?_⟩
    obtain ⟨hfirst, hclose⟩ := Enclosed.closesAtEnd h
    rw [hfirst, hclose]
    rfl

/-- The brackets of what is read as an operand. They are matched kind by kind, or a parenthesis at the first token is
closed by `]` at the last one; and the operand is an indirection just if a parenthesis at the first token is matched by
the last one, be it of its kind or not. -/
theorem operand_brackets (h : parse ts = .ok o) : (Matched ts ∨ Enclosed .rbracket ts) ∧
    (isIndirect o = true ↔ Enclosed .rparen ts ∨ Enclosed .rbracket ts) := by
  have hshort {t : Token} {close : Punct} : ¬Enclosed close [t] := by
    rintro ⟨_, inner, last, h, -⟩
    simp at h
  unfold parse at h
  split at h
  · split at h
    · next hname =>
      cases h
      refine ⟨.inl rfl, iff_of_false ?_ fun h => h.elim hshort hshort⟩
      unfold ofName? at hname
      repeat' split at hname
      all_goals cases hname <;> exact Bool.false_ne_true
    · exact parsePlain_brackets h
  · cases h
    exact ⟨.inl rfl, iff_of_false Bool.false_ne_true fun h => h.elim hshort hshort⟩
  · exact parsePlain_brackets h

/-- `(5]` is read like `(5)`. -/
theorem operand_brackets_mixed :
    let ts : List Token := [⟨0, .punct .lparen⟩, ⟨1, .number "5" 5⟩, ⟨2, .punct .rbracket⟩]
    parse ts = .ok (.memory (.int 5)) ∧ ¬Matched ts ∧ Enclosed .rbracket ts := by
  intro ts
  have hread : parse ts = .ok (.memory (.int 5)) := rfl
  have hopen : openBrackets [] ts ≠ some [] := by decide
  exact ⟨hread, hopen, (operand_brackets hread).1.resolve_left hopen⟩

end Operand

end SpectrumAsm
