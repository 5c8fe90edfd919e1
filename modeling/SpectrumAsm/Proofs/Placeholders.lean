/-
Placeholders in texts, filled one after the other or at once.

The expansion of a macro goes through a literal once for each placeholder, and each time looks at what it has
put there before. As long as no argument has an opening brace in it, that is the same as putting all arguments
where their placeholders stand (`replaceFrom_fill`, `foldl_replaceAll`).
-/
import Mathlib.Data.List.DropRight
import SpectrumAsm.Proofs.DottedNames
import SpectrumAsm.Proofs.Substitution
import SpectrumAsm.Proofs.Walking

namespace SpectrumAsm

open List Text

namespace Expansion

variable {cs before after inner rest name new : List Char} {n m : Nat} {f g : List Char → List Char}

/-! ## Texts with placeholders -/

def braced (inner : List Char) : List Char := '\x7b' :: '\x7b' :: (inner ++ ['\x7d', '\x7d'])

/-- A text with something in the place of each of its first `n` placeholders, by what is between the braces. -/
def fillFrom (f : List Char → List Char) : Nat → List Char → List Char
  | 0, cs => cs
  | n + 1, cs =>
    match breakAtPair '\x7b' cs with
    | none => cs
    | some (before, after) =>
      match breakAtPair '\x7d' after with
      | none => cs
      | some (inner, rest) => before ++ (f inner ++ fillFrom f n rest)

theorem breakAtPair_some {mark : Char} (h : breakAtPair mark cs = some (before, after)) :
    cs = before ++ mark :: mark :: after := by
  fun_induction breakAtPair mark cs generalizing before with
  | case1 a b cs hab => simp_all
  | case2 a b cs hab ih =>
    obtain ⟨⟨before, after⟩, hbreak, heq⟩ := Option.map_eq_some_iff.1 h
    cases heq
    rw [ih hbreak, cons_append]
  | case3 => cases h

theorem breakAtPair_append (mark : Char) (u w : List Char) :
    ∃ before x, breakAtPair mark (u ++ mark :: mark :: w) = some (before, x ++ w) := by
  induction u with
  | nil => exact ⟨[], [], by simp [breakAtPair]⟩
  | cons a u ih =>
    obtain ⟨before, x, hx⟩ := ih
    obtain ⟨b, rest, hrest⟩ : ∃ b rest, u ++ mark :: mark :: w = b :: (rest ++ w) := by
      cases u with
      | nil => exact ⟨mark, [mark], rfl⟩
      | cons b u => exact ⟨b, u ++ [mark, mark], by simp⟩
    rw [cons_append, hrest, breakAtPair]
    split
    · exact ⟨[], rest, rfl⟩
    · rw [← hrest, hx]
      exact ⟨a :: before, x, rfl⟩

theorem exists_placeholder (h : braced name <:+: cs) : ∃ before after inner rest,
    breakAtPair '\x7b' cs = some (before, after) ∧ breakAtPair '\x7d' after = some (inner, rest) := by
  obtain ⟨u, v, rfl⟩ := h
  obtain ⟨before, x, hopen⟩ := breakAtPair_append '\x7b' u (name ++ '\x7d' :: '\x7d' :: v)
  obtain ⟨inner, y, hclose⟩ := breakAtPair_append '\x7d' (x ++ name) v
  exact ⟨before, _, inner, _, by simpa [braced] using hopen, by simpa using hclose⟩

theorem fillFrom_braced (n : Nat) (cs : List Char) : fillFrom braced n cs = cs := by
  fun_induction fillFrom braced n cs with
  | case1 | case2 | case3 => rfl
  | case4 n cs before after hopen inner rest hclose ih =>
    rw [ih, breakAtPair_some hopen, breakAtPair_some hclose]
    simp [braced]

section
variable (hopen : breakAtPair '\x7b' cs = some (before, after)) (hclose : breakAtPair '\x7d' after = some (inner, rest))
include hopen hclose

theorem fillFrom_some : fillFrom f (n + 1) cs = before ++ (f inner ++ fillFrom f n rest) := by
  simp [fillFrom, hopen, hclose]

theorem placeholdersFrom_some :
    placeholdersFrom (n + 1) cs = String.ofList (trimChars inner) :: placeholdersFrom n rest := by
  simp [placeholdersFrom, hopen, hclose]

end

theorem fillFrom_congr (h : ∀ inner, String.ofList (trimChars inner) ∈ placeholdersFrom n cs → f inner = g inner) :
    fillFrom f n cs = fillFrom g n cs := by
  fun_induction fillFrom f n cs with
  | case1 => rfl
  | case2 n cs hopen => simp [fillFrom, hopen]
  | case3 n cs before after hopen hclose => simp [fillFrom, hopen, hclose]
  | case4 n cs before after hopen inner rest hclose ih =>
    rw [placeholdersFrom_some hopen hclose] at h
    rw [fillFrom_some hopen hclose, h inner mem_cons_self, ih fun x hx => h x (mem_cons_of_mem _ hx)]

theorem exists_of_mem_placeholders {p : String} (h : p ∈ placeholdersFrom n cs) :
    ∃ inner, p = String.ofList (trimChars inner) := by
  fun_induction placeholdersFrom n cs with
  | case1 | case2 | case3 => cases h
  | case4 n cs before after hopen inner rest hclose ih => exact (mem_cons.1 h).elim (⟨inner, ·⟩) ih

/-! ## Filling one after the other -/

def Braceless (cs : List Char) : Prop := '\x7b' ∉ cs ∧ '\x7d' ∉ cs
  deriving Decidable

section
variable {old : List Char} {c : Char}

theorem replaceFrom_absent (h : ¬ old <:+: cs) (n : Nat) : replaceFrom old new n cs = cs := by
  induction n generalizing cs with
  | zero => rfl
  | succ n ih =>
    cases cs with
    | nil => rfl
    | cons c cs =>
      have hfirst : ¬ old.isPrefixOf (c :: cs) = true := mt isPrefixOf_iff_prefix.1 fun hp => h hp.isInfix
      rw [replaceFrom, if_neg hfirst, ih fun hi => h (hi.trans (suffix_cons c cs).isInfix)]

theorem replaceFrom_step (h : ¬ old <+: c :: cs) (hn : cs.length + 1 ≤ n) :
    replaceFrom old new n (c :: cs) = c :: replaceFrom old new (n - 1) cs := by
  obtain ⟨n, rfl⟩ : ∃ m, n = m + 1 := ⟨n - 1, by omega⟩
  rw [replaceFrom, if_neg (mt isPrefixOf_iff_prefix.1 h), Nat.add_sub_cancel]

theorem replaceFrom_hit (hn : rest.length + 1 ≤ n) :
    replaceFrom (c :: old) new n (c :: old ++ rest) = new ++ replaceFrom (c :: old) new (n - 1) rest := by
  obtain ⟨n, rfl⟩ : ∃ m, n = m + 1 := ⟨n - 1, by omega⟩
  have hfirst : (c :: old).isPrefixOf (c :: (old ++ rest)) = true :=
    isPrefixOf_iff_prefix.2 (prefix_append (c :: old) rest)
  rw [cons_append, replaceFrom, if_pos hfirst, ← cons_append, drop_left, Nat.add_sub_cancel]

theorem replaceFrom_pass {w : List Char} (hw : ∀ c u, c :: u <:+ w → ¬ old <+: c :: (u ++ rest))
    (hn : w.length + rest.length ≤ n) :
    replaceFrom old new n (w ++ rest) = w ++ replaceFrom old new (n - w.length) rest := by
  induction w generalizing n with
  | nil => rfl
  | cons d w ih =>
    rw [length_cons] at hn
    rw [cons_append, replaceFrom_step (hw d w suffix_rfl) (by simp; omega),
      ih (fun c u h => hw c u (h.trans (suffix_cons d w))) (by omega), cons_append, length_cons,
      Nat.add_comm w.length, Nat.sub_sub]

end

section
variable {c : Char} {u x y : List Char}

theorem not_prefix_of_not_mem {w : List Char} (hw : '\x7b' ∉ w) (hu : c :: u <:+ w) : ¬ braced name <+: c :: (u ++ x) :=
  fun hp => hw (hu.subset ((cons_prefix_cons.1 hp).1 ▸ mem_cons_self))

theorem not_prefix_before (h : breakAtPair '\x7b' cs = some (before, after)) (hu : c :: u <:+ before) :
    ¬ braced name <+: c :: (u ++ x) := by
  fun_induction breakAtPair '\x7b' cs generalizing before with
  | case1 =>
    cases h
    cases suffix_nil.1 hu
  | case2 a b cs hab ih =>
    obtain ⟨⟨before, after⟩, hbreak, heq⟩ := Option.map_eq_some_iff.1 h
    cases heq
    rcases suffix_cons_iff.1 hu with hu | hu
    · cases hu
      intro hp
      obtain ⟨rfl, hnext⟩ := cons_prefix_cons.1 hp
      have hsplit := breakAtPair_some hbreak
      cases u with
      | nil => simp_all
      | cons d u =>
        cases hsplit
        obtain ⟨rfl, -⟩ := cons_prefix_cons.1 hnext
        simp at hab
    · exact ih hbreak hu
  | case3 => cases h

theorem eq_of_prefix_append (hname : c ∉ name) (hinner : c ∉ inner) (h : name ++ c :: x <+: inner ++ c :: y) :
    name = inner := by
  induction name generalizing inner with
  | nil =>
    cases inner with
    | nil => rfl
    | cons d inner => simp_all [cons_prefix_cons]
  | cons a name ih =>
    cases inner with
    | nil => simp_all [cons_prefix_cons]
    | cons d inner =>
      obtain ⟨rfl, hrest⟩ := cons_prefix_cons.1 h
      exact congrArg (a :: ·) (ih (mt (mem_cons_of_mem a) hname) (mt (mem_cons_of_mem a) hinner) hrest)

theorem not_prefix_other (hname : Braceless name) (hinner : Braceless inner) (hne : inner ≠ name)
    (hu : c :: u <:+ braced inner) : ¬ braced name <+: c :: (u ++ x) := by
  rcases suffix_cons_iff.1 hu with hu | hu
  · cases hu
    exact fun hp => hne (eq_of_prefix_append hname.2 hinner.2 (by simpa [braced, cons_prefix_cons] using hp)).symm
  rcases suffix_cons_iff.1 hu with hu | hu
  · cases hu
    intro hp
    have hnext := (cons_prefix_cons.1 hp).2
    cases inner with
    | nil => simp [cons_prefix_cons] at hnext
    | cons d inner => exact hinner.1 ((cons_prefix_cons.1 hnext).1 ▸ mem_cons_self)
  · exact not_prefix_of_not_mem (by simp [hinner.1]) hu

end

/-! ### Blanks around a name -/

section
open SpectrumAsm.Text

theorem mem_dropWhile_isBlank {c : Char} (hc : isBlank c = false) (h : c ∈ cs) : c ∈ cs.dropWhile isBlank := by
  rw [← takeWhile_append_dropWhile (p := isBlank) (l := cs)] at h
  rcases mem_append.1 h with h | h
  · rw [mem_takeWhile_imp h] at hc
    cases hc
  · exact h

theorem Braceless.of_trimChars (h : Braceless (trimChars inner)) : Braceless inner := by
  have hmem {c : Char} (hc : isBlank c = false) (h : c ∈ inner) : c ∈ trimChars inner :=
    mem_reverse.2 (mem_dropWhile_isBlank hc (mem_reverse.2 (mem_dropWhile_isBlank hc h)))
  exact ⟨mt (hmem (by decide)) h.1, mt (hmem (by decide)) h.2⟩

theorem trimChars_trimChars (cs : List Char) : trimChars (trimChars cs) = trimChars cs := by
  have hfirst : (trimChars cs).dropWhile isBlank = trimChars cs := by
    refine dropWhile_eq_self_iff.2 fun hpos => ?_
    have hstart : trimChars cs <+: cs.dropWhile isBlank := rdropWhile_prefix isBlank _
    rw [hstart.getElem]
    exact dropWhile_get_zero_not isBlank cs _
  show ((trimChars cs).dropWhile isBlank).rdropWhile isBlank = _
  rw [hfirst]
  exact rdropWhile_idempotent isBlank _

end

/-! ### Texts of arguments -/

/-- What stands in the place of a placeholder after some names were replaced by texts. -/
def filled (f : String → String) (done : List String) (inner : List Char) : List Char :=
  if String.ofList inner ∈ done then (f (String.ofList inner)).toList else braced inner

section
variable {f : String → String} {done : List String} (hnames : ∀ p ∈ placeholdersFrom n cs, Braceless p.toList)
  (hn : cs.length ≤ n)
include hnames hn

/-- The placeholders of a name are replaced where they stand. -/
theorem replaceFrom_fill {name : String} (hname : Braceless name.toList)
    (hdone : ∀ p ∈ done, '\x7b' ∉ (f p).toList) (hm : (fillFrom (filled f done) n cs).length ≤ m) :
    replaceFrom (braced name.toList) (f name).toList m (fillFrom (filled f done) n cs) =
      fillFrom (filled f (name :: done)) n cs := by
  fun_induction fillFrom (filled f done) n cs generalizing m with
  | case1 cs =>
    obtain rfl := eq_nil_of_length_eq_zero (Nat.le_zero.1 hn)
    exact replaceFrom_absent (by simp [braced]) m
  | case2 n cs hopen =>
    simp only [fillFrom, hopen]
    refine replaceFrom_absent (fun h => ?_) m
    obtain ⟨_, _, _, _, hopen', -⟩ := exists_placeholder h
    cases hopen.symm.trans hopen'
  | case3 n cs before after hopen hclose =>
    simp only [fillFrom, hopen, hclose]
    refine replaceFrom_absent (fun h => ?_) m
    obtain ⟨_, _, _, _, hopen', hclose'⟩ := exists_placeholder h
    cases hopen.symm.trans hopen'
    cases hclose.symm.trans hclose'
  | case4 n cs before after hopen inner rest hclose ih =>
    rw [placeholdersFrom_some hopen hclose] at hnames
    obtain ⟨hinner, hmore⟩ := forall_mem_cons.1 hnames
    rw [String.toList_ofList] at hinner
    have hrest : rest.length ≤ n := by
      rw [breakAtPair_some hopen, breakAtPair_some hclose] at hn
      simp at hn
      omega
    rw [length_append] at hm
    rw [fillFrom_some hopen hclose, replaceFrom_pass (fun _ _ => not_prefix_before hopen) hm]
    refine congrArg (before ++ ·) ?_
    obtain ⟨k, hk⟩ : ∃ k, m - before.length = k := ⟨_, rfl⟩
    replace hm : (filled f done inner ++ fillFrom (filled f done) n rest).length ≤ k := by omega
    rw [hk]
    rw [length_append] at hm
    by_cases hin : String.ofList inner ∈ done
    · rw [show filled f done inner = _ from if_pos hin] at hm ⊢
      rw [show filled f (name :: done) inner = _ from if_pos (mem_cons_of_mem _ hin),
        replaceFrom_pass (fun _ _ => not_prefix_of_not_mem (hdone _ hin)) hm, ih hmore hrest (by omega)]
    rw [show filled f done inner = _ from if_neg hin] at hm ⊢
    by_cases hsame : inner = name.toList
    · subst hsame
      have hlength : 2 ≤ (braced name.toList).length := by simp [braced]
      rw [show filled f (name :: done) name.toList = (f name).toList by simp [filled]]
      exact (replaceFrom_hit (by omega)).trans (congrArg _ (ih hmore hrest (by omega)))
    · have hne : String.ofList inner ≠ name := fun h => hsame (by rw [← h, String.toList_ofList])
      rw [show filled f (name :: done) inner = _ from if_neg (by simp [hne, hin]),
        replaceFrom_pass (fun _ _ => not_prefix_other hname hinner.of_trimChars hsame) hm, ih hmore hrest (by omega)]

/-- A text after the placeholders of some names are filled, one name after the other. -/
theorem foldl_replaceAll {names : List String}
    (htexts : ∀ p ∈ names, Braceless p.toList ∧ '\x7b' ∉ (f p).toList) (hdone : ∀ p ∈ done, '\x7b' ∉ (f p).toList)
    {text : String} (htext : text = String.ofList (fillFrom (filled f done) n cs)) :
    names.foldl (fun text p => replaceAll text (placeholderText p) (f p)) text =
      String.ofList (fillFrom (filled f (names.reverse ++ done)) n cs) := by
  induction names generalizing done text with
  | nil => exact htext
  | cons name names ih =>
    obtain ⟨⟨hname, hnew⟩, htexts⟩ := forall_mem_cons.1 htexts
    have hold : (placeholderText name).toList = braced name.toList := by simp [placeholderText, braced]
    rw [foldl_cons, ih htexts (forall_mem_cons.2 ⟨hnew, hdone⟩), reverse_cons, append_assoc,
      singleton_append]
    unfold replaceAll
    rw [hold, htext, String.toList_ofList, replaceFrom_fill hnames hn hname hdone (by simp)]

end

end Expansion

open Expansion

/-! ## Arguments in the place of parameters -/

namespace Expr

theorem replace_congr {S : String → Prop} {p q : String → Expr} {f g : String → String}
    (hp : ∀ name, S name → p name = q name) (hf : ∀ raw, (∀ name ∈ placeholders raw, S name) → f raw = g raw)
    {e : Expr} (h : ∀ name ∈ e.mentions, S name) : e.replace p f = e.replace q g := by
  induction e using parts_induction with
  | step e ih =>
    cases e with
    | call name args =>
      rw [mentions, mentionsAll_eq] at h
      simp only [replace]
      exact congrArg _ (map_congr_left fun arg harg =>
        ih arg harg fun name hname => h name (mem_flatMap.2 ⟨arg, harg, hname⟩))
    | _ => simp_all [parts, replace, mentions]

theorem replace_param (e : Expr) : e.replace .param id = e := by
  induction e using parts_induction with
  | step e ih =>
    cases e with
    | call name args => simpa [replace, parts] using map_congr_left ih
    | _ => simp_all [parts, replace]

theorem replace_self {p : String → Expr} {f : String → String} (hf : ∀ raw, placeholders raw = [] → f raw = raw)
    {e : Expr} (h : e.mentions = []) : e.replace p f = e := by
  refine (replace_congr (S := fun _ => False) nofun (fun raw h => ?_) (by simp [h])).trans e.replace_param
  exact hf raw (eq_nil_iff_forall_not_mem.2 h)

end Expr

namespace Bindings

variable (b : Bindings)

/-- A literal with the text of an argument in the place of each placeholder, all at once. A placeholder with
blanks around its name stays as it is written. -/
def literal (raw : String) : String :=
  String.ofList (fillFrom (fun inner => if trimChars inner = inner then (b.textOf (String.ofList inner)).toList
    else braced inner) raw.length raw.toList)

theorem fillText_self {raw : String} (h : placeholders raw = []) : b.fillText raw = raw := by
  unfold fillText
  rw [h]
  rfl

theorem substitute_self {e : Expr} (h : e.mentions = []) : b.substitute e = e := by
  rw [substitute_eq_replace]
  exact Expr.replace_self (fun _ => b.fillText_self) h

variable {b}

theorem textOf_braceless (hargs : ∀ arg ∈ b.args, '\x7b' ∉ arg.shown.toList) (name : String) :
    '\x7b' ∉ (b.textOf name).toList := by
  have hget : '\x7b' ∉ (b.get name).shown.toList := by
    rcases b.get_mem name with h | h
    · rw [h]
      decide
    · exact hargs _ h
  unfold textOf
  split
  · next s h =>
    rw [h] at hget
    simp_all [Operand.shown, Expr.shown]
  · exact hget

theorem fillText_eq_literal (hargs : ∀ arg ∈ b.args, '\x7b' ∉ arg.shown.toList) {raw : String}
    (hnames : ∀ name ∈ placeholders raw, Braceless name.toList) : b.fillText raw = b.literal raw := by
  have hnone : filled b.textOf [] = braced := funext fun inner => if_neg not_mem_nil
  have hraw : raw = String.ofList (fillFrom (filled b.textOf []) raw.length raw.toList) := by
    rw [hnone, fillFrom_braced, String.ofList_toList]
  unfold fillText literal
  rw [foldl_replaceAll hnames String.length_toList.le (fun p h => ⟨hnames p h, textOf_braceless hargs p⟩) (by simp)
    hraw]
  refine congrArg String.ofList (fillFrom_congr fun inner hinner => if_congr ⟨fun h => ?_, fun h => ?_⟩ rfl rfl)
  · rw [append_nil, mem_reverse] at h
    obtain ⟨inner', hinner'⟩ := exists_of_mem_placeholders h
    rw [String.ofList_injective hinner', trimChars_trimChars]
  · rw [append_nil, mem_reverse, ← h]
    exact hinner

theorem insert_exprOf (hargs : ∀ arg ∈ b.args, ∀ e ∈ arg.expr?, e.mentions = []) (name : String) :
    b.insert (b.exprOf name) = b.exprOf name := by
  have hget : ∀ e ∈ (b.get name).expr?, e.mentions = [] := by
    rcases b.get_mem name with h | h
    · rw [h]
      rintro _ ⟨⟩
      decide
    · exact hargs _ h
  have hmentions : (b.exprOf name).mentions = [] := by
    unfold exprOf
    split
    · next e h => exact hget e (by rw [h]; rfl)
    · next e h => exact hget e (by rw [h]; rfl)
    · rfl
  unfold insert
  split
  · next h => exact h.symm
  · rw [refill_eq_replace]
    exact Expr.replace_self (fun _ => b.fillText_self) hmentions

end Bindings

/-- Expanding a macro that was accepted replaces all at once, as long as no argument has an opening brace in its text
or mentions a parameter itself: the text of an argument stands in a literal where a placeholder of its parameter was,
and all other characters stay. A placeholder is found with blanks around its name, but only one without them is
replaced. -/
theorem expansion_at_once {a : Assembly} {name : Option String} {b : Bindings} {body : List SourceLine}
    {close : SourceLine}
    (haccepted : ((reporting (defineMacro name b.params body close)).run a).2.diagnostics = a.diagnostics)
    (hparams : ∀ p ∈ b.params, Braceless p.toList) (hshown : ∀ arg ∈ b.args, '\x7b' ∉ arg.shown.toList)
    (hargs : ∀ arg ∈ b.args, ∀ e ∈ arg.expr?, e.mentions = []) :
    (∃ key ∈ name.map upcase, (reporting (defineMacro name b.params body close)).run a =
      ((), { a with symbols := a.symbols.addMacro ⟨key, b.params, body, close.label⟩ })) ∧
    (∀ line ∈ body, ∀ s ∈ line.stmt, ∀ e ∈ s.exprs, b.substitute e = e.replace b.exprOf b.literal) ∧
    (∀ arg ∈ b.args, ∀ e ∈ arg.expr?, b.substitute e = e) ∧
    ∀ raw : String, fillFrom braced raw.length raw.toList = raw.toList ∧ ∀ f g : List Char → List Char,
      (∀ inner, String.ofList (trimChars inner) ∈ placeholders raw → f inner = g inner) →
        fillFrom f raw.length raw.toList = fillFrom g raw.length raw.toList := by
  obtain ⟨hknown, hadded⟩ := defineMacro_accepted haccepted
  refine ⟨hadded, fun line hline s hs e he => ?_, fun arg harg e he => b.substitute_self (hargs arg harg e he),
    fun raw => ⟨fillFrom_braced _ _, fun f g => fillFrom_congr⟩⟩
  rw [b.substitute_eq_replace]
  refine Expr.replace_congr (S := fun name => Braceless name.toList) (fun name _ => Bindings.insert_exprOf hargs name)
    (fun raw h => Bindings.fillText_eq_literal hshown h) fun name hname => ?_
  have hmentions : name ∈ s.mentions := mem_append_right _ (mem_flatMap.2 ⟨e, he, hname⟩)
  obtain ⟨p, hp, hsame⟩ := any_eq_true.1 (unknownParams_eq_nil.1 hknown line hline s hs name hmentions)
  have hmem {c : Char} (hc : c.isAlpha = false) (h : c ∈ name.toList) : c ∈ p.toList := by
    rw [← mem_upcase hc] at h ⊢
    rwa [beq_iff_eq.1 hsame]
  exact ⟨mt (hmem rfl) (hparams p hp).1, mt (hmem rfl) (hparams p hp).2⟩

/-- A macro with two parameters in a literal, one of them in capital letters and once with blanks around it. -/
theorem expansion_at_once_defm :
    let raw := "\x7b\x7bA\x7d\x7d=\x7b\x7bb\x7d\x7d\x7b\x7b b \x7d\x7d"
    Bindings.substitute ⟨["a", "b"], [.expr (.text "x"), .reg8 .c]⟩ (.text raw) = .text "x=C\x7b\x7b b \x7d\x7d" := by
  intro raw
  let b : Bindings := ⟨["a", "b"], [.expr (.text "x"), .reg8 .c]⟩
  let line : SourceLine := ⟨⟨0, 1⟩, none, some (.pragma (.defm (.text raw))), none⟩
  have hexpand := (@expansion_at_once (Assembly.new {}) (some "m") b [line] ⟨⟨0, 2⟩, none, none, none⟩
    (by decide +kernel) (by decide) (by decide) (by simp [b, Operand.expr?]; decide)).2.1
  have hliteral : b.literal raw = "x=C\x7b\x7b b \x7d\x7d" := by decide +kernel
  rw [hexpand line (by simp) _ rfl (.text raw) (by simp [Stmt.exprs, Pragma.exprs]), Expr.replace, hliteral]

end SpectrumAsm
