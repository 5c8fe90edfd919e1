/-
Where the tokens of a line stand.

Every token takes the character it starts at, whatever follows. So a line has no more tokens than characters, and
their columns increase.
-/
import SpectrumAsm.Proofs.Drawing
import SpectrumAsm.Proofs.RecasedTokens

namespace SpectrumAsm.Lexer

open Text List

variable {cs ds : List Char} {c : Char} {total : Nat} {last : Option TokenKind}

theorem byteLength_append (cs ds : List Char) : byteLength (cs ++ ds) = byteLength cs + byteLength ds := by
  induction cs with
  | nil => simp [byteLength_nil]
  | cons c cs ih => rw [cons_append, byteLength_cons, byteLength_cons, ih, Nat.add_assoc]

theorem byteLength_suffix (h : ds <:+ cs) : byteLength ds ≤ byteLength cs := by
  obtain ⟨front, rfl⟩ := h
  rw [byteLength_append]
  omega

theorem lexFrom_starts (h : byteLength cs ≤ total) : ∀ t ∈ lexFrom total last cs,
    ∃ c rest, (c :: rest) <:+ cs ∧ isBlank c = false ∧ t.col + byteLength (c :: rest) = total := by
  fun_induction lexFrom total last cs with
  | case1 => exact fun t ht => absurd ht not_mem_nil
  | case2 last c cs hc ih =>
    rw [byteLength_cons] at h
    intro t ht
    obtain ⟨d, rest, hrest, hd⟩ := ih (by omega) t ht
    exact ⟨d, rest, hrest.trans (suffix_cons c cs), hd⟩
  | case3 last c cs hc found ih =>
    have hfound : found.2 <:+ c :: cs := (scan_suffix ..).trans (suffix_cons c cs)
    rw [forall_mem_cons]
    refine ⟨⟨c, cs, suffix_rfl, by simpa using hc, by dsimp only; omega⟩, fun t ht => ?_⟩
    obtain ⟨d, rest, hrest, hd⟩ := ih ((byteLength_suffix hfound).trans h) t ht
    exact ⟨d, rest, hrest.trans hfound, hd⟩

theorem lexFrom_increases (h : byteLength cs ≤ total) : (lexFrom total last cs).Pairwise (·.col < ·.col) := by
  fun_induction lexFrom total last cs with
  | case1 => exact .nil
  | case2 last c cs hc ih =>
    rw [byteLength_cons] at h
    exact ih (by omega)
  | case3 last c cs hc found ih =>
    have hfound : byteLength found.2 ≤ byteLength cs := byteLength_suffix (scan_suffix ..)
    have hsize := c.utf8Size_pos
    rw [byteLength_cons] at h
    refine .cons (fun t ht => ?_) (ih (by omega))
    obtain ⟨d, rest, hrest, -, hcol⟩ := lexFrom_starts (by omega) t ht
    have := byteLength_suffix hrest
    rw [byteLength_cons c cs]
    dsimp only
    omega

theorem length_lexFrom (cs : List Char) : (lexFrom total last cs).length ≤ cs.length := by
  fun_induction lexFrom total last cs with
  | case1 => exact Nat.le_refl 0
  | case2 last c cs hc ih => exact Nat.le_succ_of_le ih
  | case3 last c cs hc found ih => exact Nat.succ_le_succ (ih.trans (scan_suffix ..).length_le)

theorem lexFrom_first {front : List Char} (hfront : ∀ d ∈ front, isBlank d = true) (hc : isBlank c = false) :
    ((lexFrom total last (front ++ c :: cs)).head?.map (·.col)) = some (total - byteLength (c :: cs)) := by
  induction front with
  | nil => rw [nil_append, lexFrom_token hc]; rfl
  | cons d front ih =>
    rw [forall_mem_cons] at hfront
    rw [cons_append, lexFrom_blank hfront.1, ih hfront.2]

/-! ## Comments -/

theorem scanQuoted_isComment (quote : Char) (read cs : List Char) :
    (scanQuoted quote read cs).1.isComment = false := by
  fun_induction scanQuoted quote read cs with
  | case1 | case2 => rfl
  | case3 read c cs ih => exact ih
  | case4 read c cs =>
    unfold quotedToken
    dsimp only
    repeat' split
    all_goals rfl
  | case5 read c cs _ _ _ ih => exact ih

theorem scan_comment {first afterOperand : Bool} (h : (scan first afterOperand c cs).1.isComment = true) :
    (scan first afterOperand c cs).2 = [] := by
  rcases scan_cases first afterOperand c cs with hplain | hquoted
  · exact hplain.2 h
  · rw [hquoted, scanQuoted_isComment] at h
    cases h

theorem lexFrom_comment {t : Token} {after : List Token} (ht : t.kind.isComment = true) :
    ∀ before, lexFrom total last cs = before ++ t :: after → after = [] := by
  fun_induction lexFrom total last cs with
  | case1 => simp
  | case2 last c cs hc ih => exact ih
  | case3 last c cs hc found ih =>
    intro before h
    cases before with
    | nil =>
      obtain ⟨rfl, rfl⟩ := cons.inj h
      have hrest : found.2 = [] := scan_comment ht
      rw [hrest]
      exact lexFrom.eq_def ..
    | cons u before => exact ih before (cons.inj h).2

/-- Every token of a line starts at a character other than white space, and none is left out in front of the first
token. No token starts where an earlier one does, and none follows a comment. -/
theorem tokens_advance (line : String) :
    (lexLine line).length ≤ line.length ∧ (lexLine line).Pairwise (·.col < ·.col) ∧
      (∀ t ∈ lexLine line, ∃ front c rest, line.toList = front ++ c :: rest ∧ isBlank c = false ∧
        t.col = (String.ofList front).utf8ByteSize) ∧
      (∀ front c rest, line.toList = front ++ c :: rest → (∀ d ∈ front, isBlank d = true) → isBlank c = false →
        (lexLine line).head?.map (·.col) = some (String.ofList front).utf8ByteSize) ∧
      ∀ before t after, lexLine line = before ++ t :: after → t.kind.isComment = true → after = [] := by
  have hbytes (front : List Char) : (String.ofList front).utf8ByteSize = byteLength front := by
    rw [Value.utf8ByteSize_ofList]
    induction front with
    | nil => rfl
    | cons c front ih => rw [map_cons, sum_cons, ih, byteLength_cons]
  refine ⟨?_, lexFrom_increases (Nat.le_refl _), fun t ht => ?_, fun front c rest hline hfront hc => ?_,
    fun before _ _ h ht => lexFrom_comment ht before h⟩
  · rw [← String.length_toList]
    exact length_lexFrom _
  · obtain ⟨c, rest, ⟨front, hline⟩, hc, hcol⟩ := lexFrom_starts (Nat.le_refl _) t ht
    rw [← hline, byteLength_append] at hcol
    exact ⟨front, c, rest, hline.symm, hc, by rw [hbytes]; omega⟩
  · unfold lexLine
    rw [hline, lexFrom_first hfront hc, hbytes, byteLength_append]
    simp

/-- After white space. -/
theorem tokens_advance_accent : (lexLine "\té;").head?.map (·.col) = some 1 ∧ (lexLine "\té;").length ≤ 3 :=
  ⟨(tokens_advance "\té;").2.2.2.1 ['\t'] 'é' [';'] rfl (forall_mem_singleton.2 rfl) rfl, (tokens_advance "\té;").1⟩

end SpectrumAsm.Lexer
