/-
What expressions evaluate to.

An expression waits exactly if one of the symbols that stand in it has no value. Otherwise nothing but these values,
the address, the pass of the loop and the random numbers have a say. The length of a text is limited where it is
written, in characters, and where two texts are joined, in bytes.
-/
import SpectrumAsm.Proofs.Drawing

namespace SpectrumAsm

open List Text Value

/-! ## Symbols without a value -/

theorem foldl_distinct {α : Type} [BEq α] (xs seen : List α) :
    xs.foldl (fun seen x => if seen.contains x then seen else seen ++ [x]) seen =
      eraseDupsBy.loop (· == ·) xs seen.reverse := by
  induction xs generalizing seen with
  | nil => simp [eraseDupsBy.loop]
  | cons x xs ih =>
    rw [foldl_cons, ih, eraseDupsBy.loop, any_reverse, ← contains_eq_any_beq]
    cases seen.contains x <;> simp

theorem distinct_eq_eraseDups {α : Type} [BEq α] (xs : List α) : distinct xs = xs.eraseDups := foldl_distinct xs []

namespace Expr

/-- A symbol stands somewhere in an expression. -/
inductive Occurs (ref : SymbolRef) : Expr → Prop where
  | here : Occurs ref (symbol ref)
  | part {e part : Expr} (hpart : part ∈ e.parts) (h : Occurs ref part) : Occurs ref e

theorem mem_symbols {ref : SymbolRef} {e : Expr} (h : ref ∈ e.symbols) :
    e = symbol ref ∨ ∃ part ∈ e.parts, ref ∈ part.symbols := by
  cases e with
  | symbol ref' => exact .inl (mem_singleton.1 h ▸ rfl)
  | call name args => exact .inr (by simpa [symbols, symbolsAll_eq, parts] using h)
  | _ => simp_all [symbols, parts]

theorem occurs_iff {ref : SymbolRef} {e : Expr} : Occurs ref e ↔ ref ∈ e.symbols := by
  constructor
  · intro h
    induction h with
    | here => exact mem_singleton.2 rfl
    | part hpart _ ih => exact symbols_of_part hpart ih
  · induction e using parts_induction with
    | step e ih =>
      intro h
      obtain rfl | ⟨part, hpart, h⟩ := mem_symbols h
      · exact .here
      · exact .part hpart (ih part hpart h)

variable {env : Env}

theorem pendingNames_ne_nil {e : Expr} : e.pendingNames env ≠ [] ↔ ∃ ref, Occurs ref e ∧ env.symbol ref = none := by
  rw [ne_eq, eq_nil_iff_forall_not_mem]
  simp [pendingNames, occurs_iff]

/-- An expression without parameters waits for the symbols in it that have no value. If there are none, its value is
the one that any other environment with these values gives, whatever else has a value there. -/
theorem evaluate_exact (t : SymbolTable) (place : Place) (e : Expr) (hparams : e.params = []) (g : Random) :
    ((∃ names, ((e.evaluate (t.env place)).run.run g).1 = .ok (.pending names)) ↔
      ∃ ref, Occurs ref e ∧ (t.lookup ref place.scope place.module).bind (·.value) = none) ∧
    (∀ names, ((e.evaluate (t.env place)).run.run g).1 = .ok (.pending names) →
      (e.evaluate (t.env place)).run.run g = (.ok (.pending names), g) ∧
        names = ((e.symbols.filter fun ref => ((t.env place).symbol ref).isNone).map SymbolRef.text).eraseDups) ∧
    ((∀ ref, Occurs ref e → (t.lookup ref place.scope place.module).bind (·.value) ≠ none) → ∀ env : Env,
      (∀ ref, Occurs ref e → env.symbol ref = (t.env place).symbol ref) → env.address = place.origin →
      env.counter = t.loopCounter? place.scope → e.evaluate env = e.evaluate (t.env place) ∧ ∀ default : Value,
        e.evaluate (t.env place) = Evaluated.ready <$>
          e.value { env with symbol := fun ref => some ((env.symbol ref).getD default) }) := by
  refine ⟨?waits, ?names, ?value⟩
  case waits =>
    simp only [evaluate_pending_iff, exists_eq_right', Waits, hparams, true_and]
    exact pendingNames_ne_nil
  case names =>
    intro names h
    obtain ⟨hwaits, rfl⟩ := evaluate_pending_iff.1 h
    exact ⟨evaluate_waits hwaits g, distinct_eq_eraseDups _⟩
  case value =>
    intro hvalues env hsame haddress hcounter
    have hnone : e.pendingNames (t.env place) = [] :=
      Classical.byContradiction fun hn => (pendingNames_ne_nil.1 hn).elim fun ref h => hvalues ref h.1 h.2
    have hsymbols := fun ref hr => hsame ref (occurs_iff.2 hr)
    refine ⟨evaluate_agrees (P := fun _ => True) (fun _ _ _ => trivial) (fun _ => haddress) (fun _ => hcounter)
      trivial hsymbols, fun default => ?_⟩
    have hvalue : e.value (t.env place) =
        e.value { env with symbol := fun ref => some ((env.symbol ref).getD default) } := by
      refine value_agrees (P := fun _ => True) (fun _ _ _ => trivial) (fun _ => haddress.symm)
        (fun _ => hcounter.symm) trivial fun ref hr => ?_
      obtain ⟨v, hv⟩ := Option.ne_none_iff_exists'.1 (hvalues ref (occurs_iff.2 hr))
      have hv : (t.env place).symbol ref = some v := hv
      dsimp only
      rw [hsymbols ref hr, hv]
      rfl
    unfold evaluate
    rw [hparams, hnone, hvalue]
    rfl

/-- A condition that is decided waits for both of its branches. -/
theorem evaluate_exact_branches :
    let e := cond (.int 1) (.symbol ⟨["B"], false⟩) (.binary .add (.symbol ⟨["A"], false⟩) (.symbol ⟨["B"], false⟩))
    let env := (SymbolTable.new false).env ⟨none, 0, 0⟩
    e.params = [] ∧ (e.evaluate env).run.run ⟨7⟩ = (.ok (.pending ["B", "A"]), ⟨7⟩) := by
  intro e env
  have hexact := evaluate_exact (.new false) ⟨none, 0, 0⟩ e rfl ⟨7⟩
  have hpart : symbol ⟨["B"], false⟩ ∈ e.parts := by simp [e, parts]
  obtain ⟨names, h⟩ := hexact.1.2 ⟨_, .part hpart .here, by decide +kernel⟩
  obtain ⟨hrun, hnames⟩ := hexact.2.1 names h
  refine ⟨rfl, ?_⟩
  rw [hrun, hnames]
  rfl

/-- A text that an expression gives is too long only if it went through case functions, and each of them makes
it at most three times as long. -/
theorem text_growth {env : Env} (henv : env.Bounded) (e : Expr) (g : Random) (s : String)
    (h : ((e.evaluate env).run.run g).1 = .ok (.ready (.str s))) : s.length ≤ maxText * 3 ^ e.caseDepth := by
  have hout := (evaluate_obeys env e).outcome g
  rw [h] at hout
  exact hout henv (.str s) rfl

/-- The longest text of a letter that is three letters in upper case. -/
theorem text_growth_attained :
    let env : Env := ⟨fun _ => some (.str (String.ofList (replicate maxText 'ΐ'))), 0, none⟩
    let e := call "ucase" [.symbol ⟨["S"], false⟩]
    ∃ s : String, env.Bounded ∧ ((e.evaluate env).run.run ⟨0⟩).1 = .ok (.ready (.str s)) ∧
      s.length = 30000 ∧ s.length ≤ maxText * 3 ^ e.caseDepth := by
  intro env e
  have henv : env.Bounded := by
    rintro ref v ⟨⟩
    show (String.ofList _).length ≤ _
    simp
  have hrun : ((e.evaluate env).run.run ⟨0⟩).1 =
      .ok (.ready (.str (upper (String.ofList (replicate maxText 'ΐ'))))) := by
    simp only [env]
    generalize String.ofList _ = s
    rfl
  have hletter : (upperChar 'ΐ').length = 3 := by
    obtain ⟨image, himage, hlength⟩ := Option.map_eq_some_iff.1 length_upperLong.2
    rw [upperChar, if_neg (by decide), mapCase_of_long himage, hlength]
  refine ⟨_, henv, hrun, ?_, text_growth henv e ⟨0⟩ _ hrun⟩
  rw [upper, String.length_ofList, String.toList_ofList, flatMap_replicate, length_flatten,
    map_replicate, sum_replicate_nat, hletter]
  rfl

/-! ## Joined texts -/

theorem unescape_of_plain {cs : List Char} (h : '\\' ∉ cs) : unescape cs = cs := by
  fun_induction unescape cs with
  | case1 => rfl
  | case2 => simp at h
  | case3 c cs ih => simp at h
  | case4 c cs _ _ ih => rw [ih fun hm => h (.tail c hm)]

theorem value_text {s : String} (h : '\\' ∉ s.toList) : (text s).value env =
      if s.length > maxText then throw (.stringTooLong maxText) else pure (.str s) := by
  rw [value, unescape_of_plain h, String.length_toList, String.ofList_toList]

theorem evaluate_text {s : String} (h : '\\' ∉ s.toList) (g : Random) : ((text s).evaluate env).run.run g =
      (if s.length > maxText then .error (.stringTooLong maxText) else .ok (.ready (.str s)), g) := by
  rw [evaluate_known rfl rfl, value_text h]
  by_cases hlong : s.length > maxText
  · rw [if_pos hlong, if_pos hlong]
    rfl
  · rw [if_neg hlong, if_neg hlong]
    rfl

/-- Joined texts are what the text written as one is, unless that has few enough characters but too many bytes:
then only the joined texts are refused. -/
theorem join_eq_literal_iff (env : Env) (g : Random) (s t : String) (hs : '\\' ∉ s.toList) (ht : '\\' ∉ t.toList)
    (hsok : ∃ v, (((text s).evaluate env).run.run g).1 = .ok v)
    (htok : ∃ v, (((text t).evaluate env).run.run g).1 = .ok v) :
    (((binary .add (text s) (text t)).evaluate env).run.run g = ((text (s ++ t)).evaluate env).run.run g ↔
      s.utf8ByteSize + t.utf8ByteSize ≤ maxText ∨ maxText < (s ++ t).length) ∧
    (maxText < s.utf8ByteSize + t.utf8ByteSize →
      ((binary .add (text s) (text t)).evaluate env).run.run g = (.error (.stringTooLong maxText), g)) := by
  have hlen {u : String} (hu : '\\' ∉ u.toList) (hok : ∃ v, (((text u).evaluate env).run.run g).1 = .ok v) :
      u.length ≤ maxText := by
    obtain ⟨v, hv⟩ := hok
    rw [evaluate_text hu] at hv
    refine Nat.le_of_not_gt fun hlong => ?_
    simp [hlong] at hv
  have hst : '\\' ∉ (s ++ t).toList := by simp [hs, ht]
  have hbytes := length_le_utf8ByteSize (s ++ t)
  rw [String.utf8ByteSize_append] at hbytes
  have hjoin : (binary .add (text s) (text t)).value env = ofExcept (textual .add s t) := by
    rw [value, value_text hs, value_text ht, if_neg (Nat.not_lt.2 (hlen hs hsok)),
      if_neg (Nat.not_lt.2 (hlen ht htok))]
    rfl
  have hrun : ((binary .add (text s) (text t)).evaluate env).run.run g =
      (if s.utf8ByteSize + t.utf8ByteSize > maxText then .error (.stringTooLong maxText)
        else .ok (.ready (.str (s ++ t))), g) := by
    rw [evaluate_known rfl rfl, hjoin, textual]
    by_cases hlong : s.utf8ByteSize + t.utf8ByteSize > maxText
    · rw [if_pos hlong, if_pos hlong]
      rfl
    · rw [if_neg hlong, if_neg hlong]
      rfl
  rw [hrun, evaluate_text hst]
  constructor
  · split <;> split <;> grind
  · intro h
    rw [if_pos h]

/-- Five thousand letters of two bytes and one letter more. -/
theorem join_eq_literal_iff_bytes :
    let s := String.ofList (replicate 5000 'é')
    let env : Env := ⟨fun _ => none, 0, none⟩
    (∃ v, (((text s).evaluate env).run.run ⟨0⟩).1 = .ok v) ∧ (s ++ "x").length = 5001 ∧
      ((binary .add (text s) (text "x")).evaluate env).run.run ⟨0⟩ ≠ ((text (s ++ "x")).evaluate env).run.run ⟨0⟩ := by
  intro s env
  have hplain : '\\' ∉ s.toList := by
    rw [String.toList_ofList, mem_replicate]
    decide
  have hlen : s.length = 5000 := by rw [String.length_ofList, length_replicate]
  have hjoined : (s ++ "x").length = 5001 := by rw [String.length_append, hlen]; rfl
  have hbytes : s.utf8ByteSize + "x".utf8ByteSize = 10001 := by
    rw [utf8ByteSize_ofList, map_replicate, sum_replicate_nat]
    decide +kernel
  have hsok : ∃ v, (((text s).evaluate env).run.run ⟨0⟩).1 = .ok v := by
    rw [evaluate_text hplain, hlen]
    exact ⟨_, rfl⟩
  refine ⟨hsok, hjoined, fun heq => ?_⟩
  have hcond := (join_eq_literal_iff env ⟨0⟩ s "x" hplain (by decide +kernel) hsok ⟨_, rfl⟩).1.1 heq
  rw [hbytes, hjoined] at hcond
  exact absurd hcond (by decide)

end Expr

end SpectrumAsm
