/-
Tokens and the case of letters.

What a scanner takes, and what it makes of it, depends on the case of A to Z only for quoted texts (`scan_upper`).
A line is recased when the case of letters was changed in all other tokens (`RecasedLine`); its tokens are the
same up to the case of names (`lexLine_recased`).
-/
import Mathlib.Data.List.Forall2
import SpectrumAsm.Proofs.DottedNames
import SpectrumAsm.Token.Lexer

namespace SpectrumAsm

open List Text Char Punct

variable {cs ds rest : List Char} {c quote : Char} {last : Option TokenKind}

/-! ## Characters -/

@[simp] theorem toUpper_comp_toUpper : toUpper ∘ toUpper = toUpper := funext toUpper_toUpper

theorem toLower_toUpper (c : Char) : c.toUpper.toLower = c.toLower := toUpper_invariant (by decide) c

theorem utf8Size_toUpper (c : Char) : c.toUpper.utf8Size = c.utf8Size := toUpper_invariant (by decide) c

theorem isDigit_toUpper (c : Char) : c.toUpper.isDigit = c.isDigit := toUpper_invariant (by decide) c

theorem ofChar?_toUpper (c : Char) : ofChar? c.toUpper = ofChar? c := toUpper_invariant (by decide) c

theorem ofPair?_letter {d : Char} (h : c.isAlpha = true ∨ d.isAlpha = true) : ofPair? c d = none := by
  unfold ofPair?
  split
  all_goals first | rfl | (revert h; decide)

theorem ofPair?_toUpper (c d : Char) : ofPair? c.toUpper d.toUpper = ofPair? c d := by
  by_cases hc : c.toUpper = c
  · by_cases hd : d.toUpper = d
    · rw [hc, hd]
    · rw [ofPair?_letter (.inr (isAlpha_toUpper hd).1), ofPair?_letter (.inr (isAlpha_toUpper hd).2)]
  · rw [ofPair?_letter (.inl (isAlpha_toUpper hc).1), ofPair?_letter (.inl (isAlpha_toUpper hc).2)]

namespace Text

theorem isBlank_toUpper (c : Char) : isBlank c.toUpper = isBlank c := toUpper_invariant (by decide) c

theorem digitValue_toUpper (radix : Nat) (c : Char) : digitValue radix c.toUpper = digitValue radix c := by
  refine toUpper_invariant (fun n => ?_) c
  refine congrArg (Option.filter (· < radix)) ?_
  revert n
  decide

theorem isHexDigit_toUpper (c : Char) : isHexDigit c.toUpper = isHexDigit c :=
  congrArg Option.isSome (digitValue_toUpper 16 c)

theorem readDigits_upper (radix acc : Nat) (cs : List Char) :
    readDigits radix acc (cs.map toUpper) = readDigits radix acc cs := by
  induction cs generalizing acc with
  | nil => rfl
  | cons c cs ih => simp [readDigits, digitValue_toUpper, ih]

theorem readNat_upper (radix : Nat) (cs : List Char) : readNat radix (cs.map toUpper) = readNat radix cs := by
  simp [readNat, readDigits_upper]

theorem readWord64_upper (radix : Nat) (cs : List Char) :
    readWord64 radix (cs.map toUpper) = readWord64 radix cs := by
  simp [readWord64, readNat_upper]

theorem upcase_ofList (cs : List Char) : upcase (String.ofList cs) = String.ofList (cs.map toUpper) := by
  rw [upcase, String.toList_ofList]

theorem upcase_ofList_upper (cs : List Char) :
    upcase (String.ofList (cs.map toUpper)) = upcase (String.ofList cs) := by
  rw [← upcase_ofList, upcase_upcase]

theorem downcase_upcase (s : String) : downcase (upcase s) = downcase s := by
  unfold downcase upcase
  rw [String.toList_ofList, map_map]
  exact congrArg _ (map_congr_left fun c _ => toLower_toUpper c)

theorem sameName_upcase_left (s t : String) : sameName (upcase s) t = sameName s t := by
  unfold sameName
  rw [upcase_upcase]

theorem sameName_upcase_right (s t : String) : sameName s (upcase t) = sameName s t := by
  unfold sameName
  rw [upcase_upcase]

end Text

/-! ## Lists of characters -/

section
variable {p : Char → Bool} (hp : ∀ c, p c.toUpper = p c)
include hp

theorem takeWhile_upper (cs : List Char) : (cs.map toUpper).takeWhile p = (cs.takeWhile p).map toUpper := by
  rw [takeWhile_map, show p ∘ toUpper = p from funext hp]

theorem dropWhile_upper (cs : List Char) : (cs.map toUpper).dropWhile p = (cs.dropWhile p).map toUpper := by
  rw [dropWhile_map, show p ∘ toUpper = p from funext hp]

theorem filter_upper (cs : List Char) : (cs.map toUpper).filter p = (cs.filter p).map toUpper := by
  rw [filter_map, show p ∘ toUpper = p from funext hp]

theorem head?_any_upper (cs : List Char) : (cs.map toUpper).head?.any p = cs.head?.any p := by
  cases cs with
  | nil => rfl
  | cons c cs => exact hp c

end

theorem head?_beq_upper {k : Char} (hk : k.isAlpha = false) (cs : List Char) :
    ((cs.map toUpper).head? == some k) = (cs.head? == some k) := by
  cases cs with
  | nil => rfl
  | cons c cs => simpa using toUpper_eq_iff hk

/-! ## Scanners -/

def TokenKind.blurred : TokenKind → TokenKind
  | ident name => ident (upcase name)
  | param name => param (upcase name)
  | number lexeme value => number (upcase lexeme) value
  | real lexeme value => real (upcase lexeme) value
  | text raw => text (upcase raw)
  | char raw => char (upcase raw)
  | comment s => comment (upcase s)
  | bad s => bad (upcase s)
  | k => k

namespace Lexer

open SpectrumAsm.Text

theorem isIdentStart_toUpper (c : Char) : isIdentStart c.toUpper = isIdentStart c := toUpper_invariant (by decide) c

theorem isIdentChar_toUpper (c : Char) : isIdentChar c.toUpper = isIdentChar c := toUpper_invariant (by decide) c

theorem filter_digits_upper (cs : List Char) :
    (cs.map toUpper).filter (· != '_') = (cs.filter (· != '_')).map toUpper :=
  filter_upper (p := (· != '_')) (fun c => congrArg not (toUpper_beq rfl c)) cs

/-- Scanned in capital letters: the same token up to case, and the same rest in capital letters. -/
def Matches (x y : TokenKind × List Char) : Prop := y.1.blurred = x.1.blurred ∧ y.2 = x.2.map toUpper

theorem Matches.ite {c : Prop} [Decidable c] {x y x' y' : TokenKind × List Char} (h : Matches x y)
    (h' : Matches x' y') : Matches (if c then x else x') (if c then y else y') := by
  by_cases hc : c
  · rwa [if_pos hc, if_pos hc]
  · rwa [if_neg hc, if_neg hc]

theorem scanComment_upper (cs : List Char) : Matches (scanComment cs) (scanComment (cs.map toUpper)) := by
  refine ⟨?_, rfl⟩
  simp [scanComment, TokenKind.blurred, dropWhile_upper isBlank_toUpper, upcase_ofList_upper]

theorem scanDirective?_upper (cs : List Char) : scanDirective? (cs.map toUpper) =
    (scanDirective? cs).map fun (k, rest) => (k, rest.map toUpper) := by
  simp only [scanDirective?, takeWhile_upper isIdentChar_toUpper, dropWhile_upper isIdentChar_toUpper,
    ← upcase_ofList, downcase_upcase]
  split <;> rfl

theorem numberToken_blurred {lexeme lexeme' : String} {radix : Nat} {digits digits' : List Char}
    (hl : upcase lexeme' = upcase lexeme) (hd : readWord64 radix digits' = readWord64 radix digits) :
    (numberToken lexeme' radix digits').blurred = (numberToken lexeme radix digits).blurred := by
  unfold numberToken
  rw [hd]
  split <;> simp [TokenKind.blurred, hl]

theorem scanRadix_upper (sign : String) (radix : Nat) (cs : List Char) :
    Matches (scanRadix sign radix cs) (scanRadix sign radix (cs.map toUpper)) := by
  refine ⟨?_, dropWhile_upper isIdentChar_toUpper cs⟩
  simp only [scanRadix, takeWhile_upper isIdentChar_toUpper, filter_digits_upper]
  exact numberToken_blurred (by rw [upcase_append, upcase_append, upcase_ofList_upper]) (readWord64_upper ..)

theorem scanDollar_upper (cs : List Char) : Matches (scanDollar cs) (scanDollar (cs.map toUpper)) := by
  unfold scanDollar
  rw [takeWhile_upper isIdentChar_toUpper, ← upcase_ofList, sameName_upcase_left, head?_any_upper isHexDigit_toUpper]
  split
  · exact ⟨rfl, dropWhile_upper isIdentChar_toUpper cs⟩
  · split
    · exact scanRadix_upper ..
    · exact ⟨rfl, rfl⟩

theorem scanDotted_upper (cs : List Char) : Matches (scanDotted cs) (scanDotted (cs.map toUpper)) := by
  refine ⟨?_, dropWhile_upper isIdentChar_toUpper cs⟩
  simp only [scanDotted, takeWhile_upper isIdentChar_toUpper, ← upcase_ofList, sameName_upcase_left]
  split <;> simp [TokenKind.blurred, upcase_upcase]

theorem scanParam_upper (cs : List Char) : Matches (scanParam cs) (scanParam (cs.map toUpper)) := by
  have hclose (l : List Char) : ((l.map toUpper).take 2 == ['\x7d', '\x7d']) = (l.take 2 == ['\x7d', '\x7d']) := by
    rcases l with _ | ⟨c, _ | ⟨d, l⟩⟩
    · rfl
    · simp
    · simp [toUpper_beq (k := '\x7d') rfl]
  have hempty (l : List Char) : (String.ofList (l.map toUpper)).isEmpty = (String.ofList l).isEmpty := by
    rw [Bool.eq_iff_iff]
    simp [String.isEmpty_iff]
  unfold scanParam
  simp only [dropWhile_upper isBlank_toUpper, dropWhile_upper isIdentChar_toUpper,
    takeWhile_upper isIdentChar_toUpper, hclose, hempty]
  split
  · exact ⟨by simp [TokenKind.blurred, upcase_ofList_upper], by rw [map_drop]⟩
  · exact ⟨by simp [TokenKind.blurred, upcase_append, upcase_ofList_upper], rfl⟩

/-! ### Numbers -/

theorem realToken_blurred {lexeme lexeme' whole whole' part part' : List Char} {exponent : Int}
    (hl : lexeme'.map toUpper = lexeme.map toUpper)
    (hr : readNat 10 (whole' ++ part') = readNat 10 (whole ++ part)) (hp : part'.length = part.length) :
    (realToken lexeme' whole' part' exponent).blurred = (realToken lexeme whole part exponent).blurred := by
  unfold realToken
  rw [hr, hp]
  split <;> simp [TokenKind.blurred, upcase_ofList, hl]

theorem signedDigits_upper {sign : List Char} (hs : sign.map toUpper = sign) (digits : List Char) :
    signedDigits sign (digits.map toUpper) = (signedDigits sign digits).map fun (text, n, rest) =>
      (text.map toUpper, n, rest.map toUpper) := by
  unfold signedDigits
  dsimp only
  rw [takeWhile_upper isDigit_toUpper, dropWhile_upper isDigit_toUpper, readNat_upper, Option.map_map]
  simp [Function.comp_def, hs]

theorem scanExponent_upper (cs : List Char) : scanExponent (cs.map toUpper) =
    (scanExponent cs).map fun (text, n, rest) => (text.map toUpper, n, rest.map toUpper) := by
  unfold scanExponent
  rw [head?_beq_upper rfl, head?_beq_upper rfl]
  split
  · next hsign =>
    have hs : (cs.take 1).map toUpper = cs.take 1 := by
      rcases cs with _ | ⟨c, cs⟩
      · rfl
      · rcases Bool.or_eq_true_iff.1 hsign with h | h <;> cases beq_iff_eq.1 h <;> rfl
    rw [← map_take, ← map_drop, hs]
    exact signedDigits_upper hs _
  · exact signedDigits_upper rfl cs

theorem scanAfterPoint_upper (plain part tail : List Char) : Matches (scanAfterPoint plain part tail)
    (scanAfterPoint (plain.map toUpper) (part.map toUpper) (tail.map toUpper)) := by
  have hreal {text text' : List Char} (htext : text'.map toUpper = text.map toUpper) (exponent : Int) :
      (realToken (plain.map toUpper ++ '.' :: part.map toUpper ++ text')
        (plain.map toUpper) (part.map toUpper) exponent).blurred =
      (realToken (plain ++ '.' :: part ++ text) plain part exponent).blurred := by
    refine realToken_blurred ?_ ?_ (length_map _)
    · simp [htext]
    · rw [← map_append, readNat_upper]
  have he : (tail.map toUpper).head?.any (·.toLower == 'e') = tail.head?.any (·.toLower == 'e') :=
    head?_any_upper (p := (·.toLower == 'e')) (fun c => by rw [toLower_toUpper]) tail
  unfold scanAfterPoint
  rw [he, ← map_drop, scanExponent_upper]
  have hnone := @hreal [] [] rfl 0
  rw [append_nil, append_nil] at hnone
  by_cases hc : tail.head?.any (·.toLower == 'e') = true
  · rw [if_pos hc, if_pos hc]
    cases scanExponent (tail.drop 1) with
    | none => exact ⟨hnone, rfl⟩
    | some found => exact ⟨hreal (by simp) _, rfl⟩
  · rw [if_neg hc, if_neg hc]
    exact ⟨hnone, rfl⟩

theorem scanFraction_upper (run plain rest : List Char) : Matches (scanFraction run plain rest)
    (scanFraction (run.map toUpper) (plain.map toUpper) (rest.map toUpper)) := by
  unfold scanFraction
  dsimp only
  rw [head?_beq_upper rfl, ← map_drop, takeWhile_upper isDigit_toUpper, dropWhile_upper isDigit_toUpper,
    isEmpty_map]
  exact .ite (scanAfterPoint_upper ..) ⟨numberToken_blurred (upcase_ofList_upper run) (readWord64_upper ..), rfl⟩

theorem scanNumber_upper (run rest : List Char) :
    Matches (scanNumber run rest) (scanNumber (run.map toUpper) (rest.map toUpper)) := by
  have hlow : ((run.map toUpper).filter (· != '_')).map toLower =
      (run.filter (· != '_')).map toLower := by
    rw [filter_digits_upper, map_map]
    exact map_congr_left fun c _ => toLower_toUpper c
  have hbad : Matches (TokenKind.bad (String.ofList run), rest)
      (.bad (String.ofList (run.map toUpper)), rest.map toUpper) :=
    ⟨by simp [TokenKind.blurred, upcase_ofList_upper], rfl⟩
  unfold scanNumber
  dsimp only
  rw [hlow, head?_beq_upper rfl, head?_beq_upper rfl, filter_digits_upper, scanExponent_upper]
  generalize (run.filter (· != '_')).map toLower = low
  have hwhole (radix : Nat) (digits : List Char) : Matches (numberToken (String.ofList run) radix digits, rest)
      (numberToken (String.ofList (run.map toUpper)) radix digits, rest.map toUpper) :=
    ⟨numberToken_blurred (upcase_ofList_upper run) rfl, rfl⟩
  refine .ite (hwhole 16 _) (.ite (hwhole 16 _) (.ite (hwhole 2 _) (.ite (hwhole 2 _)
    (.ite (scanFraction_upper run _ rest) (.ite (.ite ?_ (.ite ?_ hbad)) hbad)))))
  · split
    · exact ⟨rfl, rfl⟩
    · exact hbad
  · cases scanExponent rest with
    | none => exact hbad
    | some found =>
      obtain ⟨text, n, after⟩ := found
      exact ⟨realToken_blurred (by simp) rfl rfl, rfl⟩

/-! ### Quoted texts and names -/

theorem quotedToken_blurred (quote : Char) (raw : List Char) :
    (quotedToken quote (raw.map toUpper)).blurred = (quotedToken quote raw).blurred := by
  unfold quotedToken
  rw [isEmpty_map]
  split
  · simp [TokenKind.blurred, upcase_ofList_upper]
  · split
    · rfl
    · simp [TokenKind.blurred, upcase_ofList_upper]

theorem badQuoted_blurred (quote : Char) (read : List Char) :
    TokenKind.blurred (.bad (String.ofList (quote :: (read.map toUpper).reverse))) =
      TokenKind.blurred (.bad (String.ofList (quote :: read.reverse))) := by
  simp only [TokenKind.blurred, upcase_ofList]
  simp

theorem scanQuoted_plain (hc : c ≠ '\\') (read cs : List Char) :
    scanQuoted quote read (c :: cs) =
      if c == quote then (quotedToken quote read.reverse, cs) else scanQuoted quote (c :: read) cs :=
  scanQuoted.eq_4 quote read c cs (fun h _ => hc h) fun _ _ h _ => hc h

theorem scanQuoted_upper (hq : quote.isAlpha = false) (read cs : List Char) : Matches (scanQuoted quote read cs)
      (scanQuoted quote (read.map toUpper) (cs.map toUpper)) := by
  have hplain {c : Char} {read cs : List Char} (h : c = '\\' → cs = [] → False)
      (h' : ∀ d ds, c = '\\' → cs = d :: ds → False) : scanQuoted quote read ((c :: cs).map toUpper) =
        if c == quote then (quotedToken quote read.reverse, cs.map toUpper)
        else scanQuoted quote (c.toUpper :: read) (cs.map toUpper) := by
    have hc : c ≠ '\\' := by
      cases cs with
      | nil => exact fun hc => h hc rfl
      | cons d ds => exact fun hc => h' d ds hc rfl
    rw [map_cons, scanQuoted_plain (mt (toUpper_eq_iff rfl).1 hc), toUpper_beq hq]
  fun_induction scanQuoted quote read cs with
  | case1 read => exact ⟨badQuoted_blurred quote read, rfl⟩
  | case2 read => exact ⟨badQuoted_blurred quote ('\\' :: read), rfl⟩
  | case3 read c cs ih => exact ih
  | case4 read c cs h1 h2 hc =>
    rw [hplain h1 h2, if_pos hc, ← map_reverse]
    exact ⟨quotedToken_blurred quote _, rfl⟩
  | case5 read c cs h1 h2 hc ih =>
    rw [hplain h1 h2, if_neg hc]
    exact ih

theorem scanParts_plain (hc : c = '.' → cs = []) : scanParts (c :: cs) =
    if isIdentChar c then (c :: (scanParts cs).1, (scanParts cs).2) else ([], c :: cs) :=
  scanParts.eq_3 c cs fun d ds h hcs => by
    rw [hc h] at hcs
    cases hcs

theorem scanParts_upper (cs : List Char) : scanParts (cs.map toUpper) =
    ((scanParts cs).1.map toUpper, (scanParts cs).2.map toUpper) := by
  have hdot : '.'.toUpper = '.' := rfl
  have hupper {c : Char} {cs : List Char} (h : ∀ d ds, c = '.' → cs = d :: ds → False) :
      scanParts ((c :: cs).map toUpper) = if isIdentChar c then
        (c.toUpper :: (scanParts (cs.map toUpper)).1, (scanParts (cs.map toUpper)).2)
      else ([], (c :: cs).map toUpper) := by
    rw [map_cons, scanParts_plain, isIdentChar_toUpper]
    intro hc
    cases cs with
    | nil => rfl
    | cons d ds => exact absurd rfl (h d ds ((toUpper_eq_iff rfl).1 hc))
  fun_induction scanParts cs with
  | case1 => rfl
  | case2 c cs hc more ih =>
    rw [map_cons, map_cons, hdot, scanParts.eq_2, isIdentStart_toUpper, if_pos hc]
    rw [ih]
    rfl
  | case3 c cs hc =>
    rw [map_cons, map_cons, hdot, scanParts.eq_2, isIdentStart_toUpper, if_neg hc]
    rfl
  | case4 c cs h1 hc more ih =>
    rw [hupper h1, if_pos hc, ih]
    rfl
  | case5 c cs h1 hc =>
    rw [hupper h1, if_neg hc]
    rfl

theorem scanIdent_upper (c : Char) (cs : List Char) :
    Matches (scanIdent c cs) (scanIdent c.toUpper (cs.map toUpper)) := by
  unfold scanIdent
  dsimp only
  rw [takeWhile_upper isIdentChar_toUpper, dropWhile_upper isIdentChar_toUpper, ← map_cons, ← upcase_ofList,
    sameName_upcase_left, head?_beq_upper rfl, scanParts_upper]
  refine .ite ⟨?_, map_drop.symm⟩ ⟨?_, rfl⟩
  · simp [TokenKind.blurred, upcase_append, upcase_upcase]
  · simp [TokenKind.blurred, ← map_cons, upcase_ofList_upper]

/-- A line in capital letters is scanned like the line itself. -/
theorem scan_upper (first afterOperand : Bool) (c : Char) (cs : List Char) :
    Matches (scan first afterOperand c cs) (scan first afterOperand c.toUpper (cs.map toUpper)) := by
  have hpair : (cs.map toUpper).head?.bind (ofPair? c.toUpper) = cs.head?.bind (ofPair? c) := by
    cases cs with
    | nil => rfl
    | cons d cs => exact ofPair?_toUpper c d
  have hdrop : (cs.map toUpper).drop 1 = (cs.drop 1).map toUpper := map_drop.symm
  have hdirective : (if c == '#' && first then scanDirective? (cs.map toUpper) else none) =
      (if c == '#' && first then scanDirective? cs else none).map fun (k, rest) => (k, rest.map toUpper) := by
    rw [scanDirective?_upper]
    split <;> rfl
  unfold scan
  have hchar (k : Char) (hk : k.isAlpha = false) := toUpper_beq hk c
  have hhead (k : Char) (hk : k.isAlpha = false) := head?_beq_upper hk cs
  rw [hchar ';' rfl, hchar '/' rfl, hchar '#' rfl, hchar '\x7b' rfl, hchar '$' rfl, hchar '%' rfl, hchar '.' rfl,
    hchar '\x27' rfl, hchar '\x22' rfl, hhead '/' rfl, hhead '\x7b' rfl, hhead '0' rfl, hhead '1' rfl,
    head?_any_upper isHexDigit_toUpper, head?_any_upper isIdentStart_toUpper, isDigit_toUpper, isIdentStart_toUpper,
    ofChar?_toUpper, hpair, hdrop, hdirective]
  refine .ite (scanComment_upper cs) (.ite (scanComment_upper _) ?_)
  cases (if c == '#' && first then scanDirective? cs else none) with
  | some result => exact ⟨rfl, rfl⟩
  | none =>
    refine .ite (scanParam_upper _) (.ite (scanRadix_upper "#" 16 cs) (.ite (scanDollar_upper cs)
      (.ite (scanRadix_upper "%" 2 cs) (.ite (scanDotted_upper cs) ?_))))
    cases cs.head?.bind (ofPair? c) with
    | some p => exact ⟨rfl, rfl⟩
    | none =>
      cases ofChar? c with
      | some p => exact ⟨rfl, rfl⟩
      | none =>
        refine .ite ?_ ?_
        · rw [takeWhile_upper isIdentChar_toUpper, dropWhile_upper isIdentChar_toUpper]
          exact scanNumber_upper (c :: cs.takeWhile isIdentChar) _
        · by_cases hquote : (c == '\x27' || c == '\x22') = true
          · rw [if_pos hquote, if_pos hquote]
            have hc : c.toUpper = c ∧ c.isAlpha = false := by
              rcases Bool.or_eq_true_iff.1 hquote with h | h <;> rw [beq_iff_eq.1 h] <;> decide
            rw [hc.1]
            exact scanQuoted_upper hc.2 [] cs
          · rw [if_neg hquote, if_neg hquote]
            refine .ite (scanIdent_upper c cs) ⟨?_, rfl⟩
            exact congrArg TokenKind.bad (upcase_ofList_upper [c])

end Lexer

/-! ## Literals -/

def TokenKind.isLiteral : TokenKind → Bool
  | text _ | char _ => true
  | _ => false

theorem TokenKind.isLiteral_blurred (k : TokenKind) : k.blurred.isLiteral = k.isLiteral := by cases k <;> rfl

/-- What a token is, with its text in capital letters unless it is a literal. -/
def TokenKind.folded (k : TokenKind) : TokenKind := if k.isLiteral then k else k.blurred

namespace Lexer

theorem scanQuoted_literal {read : List Char} (h : (scanQuoted quote read cs).1.isLiteral = true) :
    ∃ raw, (scanQuoted quote read cs).1 = quotedToken quote raw ∧
      read.reverse ++ cs = raw ++ quote :: (scanQuoted quote read cs).2 := by
  fun_induction scanQuoted quote read cs with
  | case1 | case2 => cases h
  | case3 read c cs ih =>
    obtain ⟨raw, hkind, hraw⟩ := ih h
    exact ⟨raw, hkind, by simpa using hraw⟩
  | case4 read c cs _ _ hc =>
    rw [beq_iff_eq.1 hc]
    exact ⟨read.reverse, rfl, rfl⟩
  | case5 read c cs _ _ _ ih =>
    obtain ⟨raw, hkind, hraw⟩ := ih h
    exact ⟨raw, hkind, by simpa using hraw⟩

/-- A scanner has found something else than a literal. If it is a comment, nothing is left. -/
def IsPlain (x : TokenKind × List Char) : Prop := x.1.isLiteral = false ∧ (x.1.isComment = true → x.2 = [])

theorem IsPlain.ite {c : Prop} [Decidable c] {x y : TokenKind × List Char} (h : IsPlain x) (h' : IsPlain y) :
    IsPlain (if c then x else y) := by
  by_cases hc : c
  · rwa [if_pos hc]
  · rwa [if_neg hc]

theorem scanNumber_plain (run rest : List Char) : IsPlain (scanNumber run rest) := by
  unfold scanNumber scanFraction scanAfterPoint numberToken realToken
  dsimp only
  repeat' first | exact ⟨rfl, nofun⟩ | refine .ite ?_ ?_ | split

theorem scanRadix_plain (sign : String) (radix : Nat) (cs : List Char) : IsPlain (scanRadix sign radix cs) := by
  unfold IsPlain scanRadix numberToken
  dsimp only
  split <;> exact ⟨rfl, nofun⟩

theorem scanDollar_plain (cs : List Char) : IsPlain (scanDollar cs) := by
  exact .ite ⟨rfl, nofun⟩ (.ite (scanRadix_plain ..) ⟨rfl, nofun⟩)

theorem scanDotted_plain (cs : List Char) : IsPlain (scanDotted cs) := by
  unfold IsPlain scanDotted
  dsimp only
  split <;> exact ⟨rfl, nofun⟩

theorem scanDirective?_plain {result : TokenKind × List Char}
    (h : scanDirective? cs = some result) : IsPlain result := by
  unfold scanDirective? at h
  dsimp only at h
  split at h
  · cases h
    exact ⟨rfl, nofun⟩
  · cases h

theorem scan_quote (hc : (c == '\x27' || c == '\x22') = true) (first afterOperand : Bool)
    (cs : List Char) : scan first afterOperand c cs = scanQuoted c [] cs := by
  have hquote : c = '\x27' ∨ c = '\x22' := by simpa using hc
  have hpair : cs.head?.bind (ofPair? c) = none := by
    cases cs with
    | nil => rfl
    | cons d cs =>
      show ofPair? c d = none
      unfold ofPair?
      split
      all_goals first | rfl | (revert hquote; decide)
  have hne (k : Char) (hk : k ≠ '\x27' ∧ k ≠ '\x22') : (c == k) = false := by
    rw [beq_eq_false_iff_ne]
    rintro rfl
    exact hquote.elim hk.1 hk.2
  have hchar : ofChar? c = none ∧ c.isDigit = false := by rcases hquote with rfl | rfl <;> decide
  unfold scan
  simp [hne ';' (by decide), hne '/' (by decide), hne '#' (by decide), hne '\x7b' (by decide), hne '$' (by decide),
    hne '%' (by decide), hne '.' (by decide), hpair, hchar, hc]

theorem scan_cases (first afterOperand : Bool) (c : Char) (cs : List Char) :
    IsPlain (scan first afterOperand c cs) ∨ scan first afterOperand c cs = scanQuoted c [] cs := by
  by_cases hquote : (c == '\x27' || c == '\x22') = true
  · exact .inr (scan_quote hquote ..)
  · unfold scan
    refine .inl (.ite ⟨rfl, fun _ => rfl⟩ (.ite ⟨rfl, fun _ => rfl⟩ ?_))
    split
    · next result h =>
      split at h
      · exact scanDirective?_plain h
      · cases h
    · refine .ite ?_ (.ite (scanRadix_plain ..) (.ite (scanDollar_plain cs) (.ite (scanRadix_plain ..)
        (.ite (scanDotted_plain cs) ?_))))
      · unfold scanParam
        exact .ite ⟨rfl, nofun⟩ ⟨rfl, nofun⟩
      · split
        · exact ⟨rfl, nofun⟩
        · split
          · exact ⟨rfl, nofun⟩
          · rw [if_neg hquote]
            refine .ite (scanNumber_plain ..) (.ite ?_ ⟨rfl, nofun⟩)
            exact .ite ⟨rfl, nofun⟩ ⟨rfl, nofun⟩

theorem scan_literal {first afterOperand : Bool} (h : (scan first afterOperand c cs).1.isLiteral = true) :
    ∃ raw, (scan first afterOperand c cs).1 = quotedToken c raw ∧
      cs = raw ++ c :: (scan first afterOperand c cs).2 := by
  rcases scan_cases first afterOperand c cs with hplain | hquoted
  · rw [hplain.1] at h
    cases h
  · rw [hquoted] at h ⊢
    exact scanQuoted_literal h

/-! ## Recased lines -/

/-- The rest `ds` of a line is the rest `cs` of another one with the case of letters changed, but in
literals. The token before is `last`. -/
inductive RecasedFrom : Option TokenKind → List Char → List Char → Prop where
  | nil (last : Option TokenKind) : RecasedFrom last [] []
  | blank {last : Option TokenKind} {c : Char} {cs ds : List Char} (hc : isBlank c = true)
    (h : RecasedFrom last cs ds) : RecasedFrom last (c :: cs) (c :: ds)
  | token {last : Option TokenKind} {c : Char} {cs used used' rest rest' : List Char} {kind : TokenKind}
    (hc : isBlank c = false) (hscan : scan last.isNone (last.any (·.endsOperand)) c cs = (kind, rest))
    (hused : c :: cs = used ++ rest) (hcase : used'.map toUpper = used.map toUpper)
    (hliteral : kind.isLiteral = true → used' = used) (h : RecasedFrom (some kind) rest rest') :
    RecasedFrom last (c :: cs) (used' ++ rest')

/-- A line with the case of letters changed in all tokens but literals. -/
def RecasedLine (s t : String) : Prop := RecasedFrom none s.toList t.toList

/-- Checks the rest `ds` of a line against the rest `cs` of another one, which has at most `n` tokens. -/
def isRecasedFrom : Nat → Option TokenKind → List Char → List Char → Bool
  | _, _, [], ds => ds.isEmpty
  | 0, _, _ :: _, _ => false
  | n + 1, last, c :: cs, ds =>
    if isBlank c then ds.head? == some c && isRecasedFrom n last cs ds.tail
    else
      let (kind, rest) := scan last.isNone (last.any (·.endsOperand)) c cs
      let size := (c :: cs).length - rest.length
      let used := (c :: cs).take size
      let used' := ds.take size
      used'.map toUpper == used.map toUpper && (!kind.isLiteral || used' == used) &&
        isRecasedFrom n (some kind) rest (ds.drop size)

theorem recasedFrom_nil_iff : RecasedFrom last [] ds ↔ ds = [] := by
  constructor
  · intro h
    cases h
    rfl
  · rintro rfl
    exact .nil last

theorem recasedFrom_blank_iff (hc : isBlank c = true) :
    RecasedFrom last (c :: cs) ds ↔ ds.head? = some c ∧ RecasedFrom last cs ds.tail := by
  constructor
  · intro h
    cases h with
    | blank _ h => exact ⟨rfl, h⟩
    | token hc' => exact absurd (hc.symm.trans hc') Bool.noConfusion
  · rintro ⟨hhead, h⟩
    obtain ⟨ds, rfl⟩ := head?_eq_some_iff.1 hhead
    exact .blank hc h

theorem recasedFrom_token_iff {kind : TokenKind} {size : Nat} (hc : isBlank c = false)
    (hscan : scan last.isNone (last.any (·.endsOperand)) c cs = (kind, rest))
    (hsize : size = (c :: cs).length - rest.length) : RecasedFrom last (c :: cs) ds ↔
      (ds.take size).map toUpper = ((c :: cs).take size).map toUpper ∧
        (kind.isLiteral = true → ds.take size = (c :: cs).take size) ∧ RecasedFrom (some kind) rest (ds.drop size) := by
  constructor
  · intro h
    cases h with
    | blank hc' => exact absurd (hc.symm.trans hc') Bool.noConfusion
    | @token _ _ _ used used' rest rest' _ _ hscan' hused hcase hliteral h =>
      obtain ⟨rfl, rfl⟩ := Prod.mk.inj (hscan'.symm.trans hscan)
      have hused' : used.length = size := by
        have hlength := congrArg length hused
        rw [length_append] at hlength
        omega
      have hcase' : used'.length = size := by
        have hlength := congrArg length hcase
        rw [length_map, length_map] at hlength
        exact hlength.trans hused'
      rw [hused, take_left' hused', take_left' hcase', drop_left' hcase']
      exact ⟨hcase, hliteral, h⟩
  · rintro ⟨hcase, hliteral, h⟩
    have hsuffix : rest <:+ c :: cs := by
      have hleft := scan_suffix last.isNone (last.any (·.endsOperand)) c cs
      rw [hscan] at hleft
      exact hleft.trans (suffix_cons c cs)
    subst hsize
    rw [← take_append_drop _ ds]
    exact .token hc hscan (suffix_iff_eq_append.1 hsuffix).symm hcase hliteral h

theorem isRecasedFrom_iff {n : Nat} (hn : cs.length ≤ n) :
    isRecasedFrom n last cs ds = true ↔ RecasedFrom last cs ds := by
  induction n generalizing last cs ds with
  | zero =>
    obtain rfl : cs = [] := eq_nil_of_length_eq_zero (Nat.le_zero.1 hn)
    rw [isRecasedFrom, List.isEmpty_iff, recasedFrom_nil_iff]
  | succ n ih =>
    cases cs with
    | nil => rw [isRecasedFrom, List.isEmpty_iff, recasedFrom_nil_iff]
    | cons c cs =>
      have hcs : cs.length ≤ n := Nat.le_of_succ_le_succ hn
      cases hc : isBlank c with
      | true => rw [isRecasedFrom, if_pos hc, recasedFrom_blank_iff hc, Bool.and_eq_true, beq_iff_eq, ih hcs]
      | false =>
        cases hscan : scan last.isNone (last.any (·.endsOperand)) c cs with
        | mk kind rest =>
          have hrest : rest.length ≤ n := by
            have hleft := (scan_suffix last.isNone (last.any (·.endsOperand)) c cs).length_le
            rw [hscan] at hleft
            exact Nat.le_trans hleft hcs
          rw [isRecasedFrom, if_neg (by rw [hc]; exact Bool.false_ne_true), recasedFrom_token_iff hc hscan rfl, hscan]
          simp [ih hrest, and_assoc, ← Bool.not_eq_true, ← imp_iff_not_or]

instance (s t : String) : Decidable (RecasedLine s t) := decidable_of_iff _ (isRecasedFrom_iff (Nat.le_refl _))

end Lexer

/-- A text with the case of letters changed outside of literals. -/
def Recased (s t : String) : Prop := Forall₂ Lexer.RecasedLine (lines s) (lines t)

instance (s t : String) : Decidable (Recased s t) := inferInstanceAs (Decidable (Forall₂ Lexer.RecasedLine _ _))

example : Recased "x: DEFM \"a\"" "X: defm \"a\"" ∧ ¬ Recased "x: DEFM \"a\"" "x: DEFM \"A\"" := by
  decide +kernel

/-- A token with its text in capital letters, unless it is a literal. -/
def Token.folded (t : Token) : Token := { t with kind := t.kind.folded }

namespace Lexer

theorem RecasedFrom.upper (h : RecasedFrom last cs ds) : ds.map toUpper = cs.map toUpper := by
  induction h with
  | nil => rfl
  | blank _ _ ih => rw [map_cons, map_cons, ih]
  | token _ _ hused hcase _ _ ih => rw [hused, map_append, map_append, hcase, ih]

theorem byteLength_upper (cs : List Char) : byteLength (cs.map toUpper) = byteLength cs := by
  induction cs with
  | nil => rfl
  | cons c cs ih => rw [map_cons, byteLength_cons, byteLength_cons, utf8Size_toUpper, ih]

theorem byteLength_congr (h : ds.map toUpper = cs.map toUpper) : byteLength ds = byteLength cs := by
  rw [← byteLength_upper ds, h, byteLength_upper]

/-- A token of a recased line is the token of the line, up to case. -/
theorem scan_recased (first afterOperand : Bool) {used used' rest' : List Char} {kind : TokenKind}
    (hscan : scan first afterOperand c cs = (kind, rest)) (hused : c :: cs = used ++ rest)
    (hcase : used'.map toUpper = used.map toUpper) (hliteral : kind.isLiteral = true → used' = used)
    (hrest : rest'.map toUpper = rest.map toUpper) :
    ∃ d ds, used' ++ rest' = d :: ds ∧ d.toUpper = c.toUpper ∧
      (scan first afterOperand d ds).1.folded = kind.folded ∧ (scan first afterOperand d ds).2 = rest' := by
  have hsame : (used' ++ rest').map toUpper = (c :: cs).map toUpper := by
    rw [hused, map_append, map_append, hcase, hrest]
  cases hline : used' ++ rest' with
  | nil =>
    rw [hline] at hsame
    cases hsame
  | cons d ds =>
    rw [hline] at hsame
    obtain ⟨hd, hds⟩ := cons.inj hsame
    -- Both tokens are that of the line in capital letters, up to case.
    obtain ⟨hkind, hleft⟩ := scan_upper first afterOperand d ds
    rw [hd, hds, (scan_upper ..).1, hscan] at hkind
    rw [hd, hds, (scan_upper ..).2, hscan] at hleft
    replace hkind := hkind.symm
    replace hleft := hleft.symm
    -- What is left is an end of the line of a known length.
    have hleft' : (scan first afterOperand d ds).2 = rest' := by
      have hlength := congrArg length (hleft.trans hrest.symm)
      simp only [length_map] at hlength
      have hsuffix : (scan first afterOperand d ds).2 <:+ used' ++ rest' := by
        rw [hline]
        exact (scan_suffix ..).trans (suffix_cons d ds)
      obtain ⟨before, hbefore⟩ := hsuffix
      exact (append_inj' hbefore hlength).2
    refine ⟨d, ds, rfl, (cons.inj hsame).1, ?_, hleft'⟩
    have hliterals : (scan first afterOperand d ds).1.isLiteral = kind.isLiteral := by
      rw [← TokenKind.isLiteral_blurred, hkind, TokenKind.isLiteral_blurred]
    unfold TokenKind.folded
    rw [hliterals]
    by_cases hk : kind.isLiteral = true
    · rw [if_pos hk, if_pos hk]
      have hfirst : (scan first afterOperand c cs).1.isLiteral = true := by rwa [hscan]
      obtain ⟨raw, hraw, htaken⟩ := scan_literal hfirst
      obtain ⟨raw', hraw', htaken'⟩ := scan_literal (hliterals.trans hk)
      rw [hscan] at hraw htaken
      rw [hleft'] at htaken'
      have hquoted : used = c :: raw ++ [c] := append_cancel_right (hused.symm.trans (by simpa using htaken))
      have hquoted' : used' = d :: raw' ++ [d] := append_cancel_right (hline.trans (by simpa using htaken'))
      have hsame : d :: (raw' ++ [d]) = c :: (raw ++ [c]) := hquoted'.symm.trans ((hliteral hk).trans hquoted)
      obtain ⟨rfl, hsame⟩ := cons.inj hsame
      rw [hraw', append_cancel_right hsame]
      exact hraw.symm
    · rw [if_neg hk, if_neg hk]
      exact hkind

theorem endsOperand_folded (k : TokenKind) : k.folded.endsOperand = k.endsOperand := by
  cases k <;> rfl

theorem lexFrom_blank (hc : isBlank c = true) (total : Nat) (last : Option TokenKind)
    (cs : List Char) : lexFrom total last (c :: cs) = lexFrom total last cs :=
  (lexFrom.eq_def total last (c :: cs)).trans (if_pos hc)

theorem lexFrom_token (hc : isBlank c = false) (total : Nat) (last : Option TokenKind)
    (cs : List Char) : lexFrom total last (c :: cs) =
      ⟨total - byteLength (c :: cs), (scan last.isNone (last.any (·.endsOperand)) c cs).1⟩ ::
      lexFrom total (some (scan last.isNone (last.any (·.endsOperand)) c cs).1)
        (scan last.isNone (last.any (·.endsOperand)) c cs).2 :=
  (lexFrom.eq_def total last (c :: cs)).trans (if_neg (by rw [hc]; exact Bool.false_ne_true))

/-- Recased texts have the same tokens up to the case of words. -/
theorem lexFrom_recased {last' : Option TokenKind} (h : RecasedFrom last cs ds)
    (hlast : last'.map TokenKind.folded = last.map TokenKind.folded) (total : Nat) :
    (lexFrom total last' ds).map Token.folded = (lexFrom total last cs).map Token.folded := by
  induction h generalizing last' with
  | nil => rw [lexFrom.eq_def, lexFrom.eq_def]
  | blank hc _ ih =>
    rw [lexFrom_blank hc, lexFrom_blank hc]
    exact ih hlast
  | @token last c cs used used' rest rest' kind hc hscan hused hcase hliteral h ih =>
    have hnone : last'.isNone = last.isNone := by
      have := congrArg Option.isNone hlast
      simpa using this
    have hends : last'.any (·.endsOperand) = last.any (·.endsOperand) := by
      have := congrArg (Option.any (·.endsOperand)) hlast
      simpa [Option.any_map, Function.comp_def, endsOperand_folded] using this
    obtain ⟨d, ds, hline, hd, hkind, hrest⟩ := scan_recased _ _ hscan hused hcase hliteral h.upper
    have hblank : isBlank d = false := by
      rw [← isBlank_toUpper, hd, isBlank_toUpper]
      exact hc
    have hcol : byteLength (d :: ds) = byteLength (c :: cs) := by
      refine byteLength_congr ?_
      rw [← hline, hused, map_append, map_append, hcase, h.upper]
    rw [hline, lexFrom_token hblank, lexFrom_token hc, hnone, hends, hcol, hrest, hscan]
    refine congrArg₂ cons ?_ (ih ?_)
    · exact congrArg (Token.mk _) hkind
    · exact congrArg some hkind

/-- The tokens of a recased line are those of the line, up to the case of names. -/
theorem lexLine_recased {s t : String} (h : RecasedLine s t) :
    (lexLine t).map Token.folded = (lexLine s).map Token.folded := by
  unfold lexLine
  rw [byteLength_congr h.upper]
  exact lexFrom_recased h rfl _

end Lexer

end SpectrumAsm
