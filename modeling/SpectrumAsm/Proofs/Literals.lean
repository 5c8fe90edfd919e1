/-
Whole numbers in every notation.

The notations share their characters: `b` and `h` mark a number at its end, and `b` is a digit as well. The
digits of a number in one of them are read in the radix of that notation, whatever the others would make of
them, and what is too great for a word of 64 bits is a bad token.
-/
import Mathlib.Data.Nat.Digits.Defs
import SpectrumAsm.Proofs.RecasedTokens

namespace SpectrumAsm

open Lexer Text List

/-- The notations of whole numbers. -/
inductive Numeral where
  | decimal | hash | dollar | zeroX | suffixH | percent | zeroB | suffixB

namespace Numeral

def radix : Numeral → Nat
  | decimal => 10
  | percent | zeroB | suffixB => 2
  | _ => 16

/-- The sign in front of the first digit. -/
def sign : Numeral → List Char
  | hash => ['#']
  | dollar => ['$']
  | percent => ['%']
  | _ => []

/-- What stands in front of the digits, after a digit zero. -/
def front : Numeral → List Char
  | zeroX => ['0', 'x']
  | zeroB => ['0', 'b']
  | _ => []

def back : Numeral → List Char
  | suffixH => ['h']
  | suffixB => ['b']
  | _ => []

/-- Characters that write a number behind the sign of its notation: digits, letters in either case, and underscores
that do not come first. Without a sign, a decimal digit comes first. -/
structure Writes (m : Numeral) (n : Nat) (cs : List Char) : Prop where
  start : ∃ c ∈ cs.head?, c ≠ '_' ∧ (m.sign = [] → c.isDigit = true)
  digits : ∃ ds : List Nat, ds ≠ [] ∧ (∀ d ∈ ds, d < m.radix) ∧ Nat.ofDigits m.radix ds.reverse = n ∧
    (cs.filter (· != '_')).map Char.toLower = m.front ++ ds.map Nat.digitChar ++ m.back

theorem radix_le (m : Numeral) : m.radix ≤ 16 := by cases m <;> decide

end Numeral

/-! ## Digits -/

section
variable {cs rest : List Char} {ds : List Nat} {radix : Nat}

/-- What does not depend on whether letters are capital ones does not depend on whether they are small ones. -/
theorem toLower_invariant {α : Type} {f : Char → α} (h : ∀ c, f c.toUpper = f c) (c : Char) : f c.toLower = f c := by
  have hupper : c.toLower.toUpper = c.toUpper := by
    by_cases hc : 'A'.val ≤ c.val ∧ c.val ≤ 'Z'.val
    · obtain ⟨n, rfl⟩ := exists_letter hc (by decide)
      have hletter : ∀ n : Fin 26, (Char.ofNat (65 + n)).toLower.toUpper = (Char.ofNat (65 + n)).toUpper := by decide
      exact hletter n
    · rw [show c.toLower = c from dif_neg hc]
  rw [← h c.toLower, hupper, h]

namespace Text

theorem digitValue_digitChar {d : Nat} (hd : d < radix) (hradix : radix ≤ 16) :
    digitValue radix (Nat.digitChar d) = some d := by
  have hvalue : ∀ d : Fin 16, digitValue 16 (Nat.digitChar d) = some d.1 := by decide
  have hfilter (c : Char) : digitValue radix c = (digitValue 16 c).filter (· < radix) := by
    unfold digitValue
    rw [Option.filter_filter]
    exact congrFun (congrArg _ (funext fun n => by grind)) _
  rw [hfilter, hvalue ⟨d, by omega⟩]
  simp [hd]

theorem readDigits_digitChars (hds : ∀ d ∈ ds, d < radix) (hradix : radix ≤ 16)
    (hcs : cs.map Char.toLower = ds.map Nat.digitChar) (acc : Nat) :
    readDigits radix acc cs = some (ds.foldl (fun n d => n * radix + d) acc) := by
  induction ds generalizing cs acc with
  | nil => rw [map_eq_nil_iff.1 hcs]; rfl
  | cons d ds ih =>
    obtain ⟨c, cs, rfl, hc, hcs⟩ := map_eq_cons_iff.1 hcs
    rw [forall_mem_cons] at hds
    rw [readDigits, ← toLower_invariant (digitValue_toUpper radix), hc, digitValue_digitChar hds.1 hradix,
      Option.bind_some, ih hds.2 hcs, foldl_cons]

theorem ofDigits_reverse (ds : List Nat) : Nat.ofDigits radix ds.reverse = ds.foldl (fun n d => n * radix + d) 0 := by
  rw [Nat.ofDigits_eq_foldr, foldr_reverse]
  congr 1
  funext n d
  simp only [Nat.cast_id]
  ring

end Text

/-- A number, if it is one of 64 bits with a sign. -/
def wordToken (lexeme : String) (n : Nat) : TokenKind :=
  if n < 2 ^ 63 then .number lexeme (Int64.ofNat n) else .bad lexeme

theorem numberToken_digitChars (hne : ds ≠ []) (hds : ∀ d ∈ ds, d < radix) (hradix : radix ≤ 16)
    (hcs : cs.map Char.toLower = ds.map Nat.digitChar) (lexeme : String) :
    numberToken lexeme radix cs = wordToken lexeme (Nat.ofDigits radix ds.reverse) := by
  have hne : cs.isEmpty = false := by
    cases cs with
    | nil => exact absurd (map_eq_nil_iff.1 hcs.symm) hne
    | cons => rfl
  rw [ofDigits_reverse, numberToken, readWord64, readNat, if_neg (by simp [hne]),
    readDigits_digitChars hds hradix hcs, Option.bind_some, wordToken]
  by_cases hn : ds.foldl (fun n d => n * radix + d) 0 < 1 <<< 63
  · rw [if_pos hn]
    exact (if_pos hn).symm
  · rw [if_neg hn]
    exact (if_neg hn).symm

end

/-! ## Scanning -/

theorem digitChar_cases {d : Nat} (hd : d < 16) :
    isHexDigit (Nat.digitChar d) = true ∧ (d < 10 → (Nat.digitChar d).isDigit = true) ∧
      (d < 2 → Nat.digitChar d = '0' ∨ Nat.digitChar d = '1') ∧ (Nat.digitChar d).toLower = Nat.digitChar d := by
  revert d
  decide

theorem takeWhile_run {cs rest : List Char} (h : ∀ c ∈ cs, isIdentChar c = true)
    (hrest : ∀ c ∈ rest.head?, isIdentChar c = false) :
    (cs ++ rest).takeWhile isIdentChar = cs ∧ (cs ++ rest).dropWhile isIdentChar = rest := by
  rw [takeWhile_append_of_pos h, dropWhile_append_of_pos h]
  cases rest with
  | nil => simp
  | cons c rest => simp [hrest c rfl]

theorem scan_digit {c : Char} (hc : c.isDigit = true) (first afterOperand : Bool) (cs : List Char) :
    scan first afterOperand c cs = scanNumber (c :: cs.takeWhile isIdentChar) (cs.dropWhile isIdentChar) := by
  have hne {k : Char} (hk : k.isDigit = false) : (c == k) = false :=
    beq_eq_false_iff_ne.2 fun h => by rw [h, hk] at hc; cases hc
  have hpair : cs.head?.bind (Punct.ofPair? c) = none := by
    cases cs with
    | nil => rfl
    | cons d cs =>
      show Punct.ofPair? c d = none
      unfold Punct.ofPair?
      split
      all_goals first | rfl | (revert hc; decide)
  have hchar : Punct.ofChar? c = none := by
    unfold Punct.ofChar?
    split
    all_goals first | rfl | (revert hc; decide)
  simp [scan, hne (k := ';') rfl, hne (k := '/') rfl, hne (k := '#') rfl, hne (k := '\x7b') rfl, hne (k := '$') rfl,
    hne (k := '%') rfl, hne (k := '.') rfl, ↓reduceIte, hpair, hchar, hc]

namespace Numeral

variable {m : Numeral} {n : Nat} {cs rest : List Char}

theorem Writes.isIdentChar (h : m.Writes n cs) : ∀ c ∈ cs, isIdentChar c = true := by
  obtain ⟨ds, -, hds, -, hlow⟩ := h.digits
  have hmarks : ∀ c ∈ m.front ++ ds.map Nat.digitChar ++ m.back, Lexer.isIdentChar c = true := by
    have hdigit : ∀ d : Fin 16, Lexer.isIdentChar (Nat.digitChar d) = true := by decide
    have hfront : ∀ c ∈ m.front, Lexer.isIdentChar c = true := by cases m <;> simp [front, Lexer.isIdentChar]
    have hback : ∀ c ∈ m.back, Lexer.isIdentChar c = true := by cases m <;> simp [back, Lexer.isIdentChar]
    simp only [forall_mem_append, forall_mem_map]
    exact ⟨⟨hfront, fun d hd => hdigit ⟨d, Nat.lt_of_lt_of_le (hds d hd) m.radix_le⟩⟩, hback⟩
  intro c hc
  by_cases hunder : c = '_'
  · rw [hunder]
    rfl
  · rw [← toLower_invariant isIdentChar_toUpper]
    refine hmarks _ (hlow ▸ mem_map_of_mem (mem_filter.2 ⟨hc, ?_⟩))
    simpa using hunder

/-- Characters of a number with a sign; neither a directive nor the counter is made of these alone. -/
def isHexPart (c : Char) : Bool := c == '_' || isHexDigit c

theorem isHexPart_toUpper (c : Char) : isHexPart c.toUpper = isHexPart c := by
  unfold isHexPart
  rw [isHexDigit_toUpper, toUpper_beq rfl]

theorem scanDirective?_hex (h : ∀ c ∈ cs, isHexPart c = true) (hident : ∀ c ∈ cs, isIdentChar c = true)
    (hrest : ∀ c ∈ rest.head?, isIdentChar c = false) : scanDirective? (cs ++ rest) = none := by
  have hwords : ∀ name ∈ directives, name.toList.all isHexPart = false := by decide +kernel
  unfold scanDirective?
  rw [(takeWhile_run hident hrest).1]
  refine if_neg fun hmem => ?_
  have hall := hwords _ hmem
  rw [downcase, String.toList_ofList, String.toList_ofList, all_map] at hall
  have hlower : cs.all (isHexPart ∘ Char.toLower) = true :=
    all_eq_true.2 fun c hc => (toLower_invariant isHexPart_toUpper c).trans (h c hc)
  cases hlower.symm.trans hall

theorem sameName_hex (h : ∀ c ∈ cs, isHexPart c = true) : sameName (String.ofList cs) "cnt" = false := by
  refine beq_eq_false_iff_ne.2 fun hname => ?_
  have hall : (cs.map Char.toUpper).all isHexPart = true := by
    rw [all_map]
    exact all_eq_true.2 fun c hc => (isHexPart_toUpper c).trans (h c hc)
  rw [upcase_ofList] at hname
  rw [← String.toList_ofList (l := cs.map Char.toUpper), hname] at hall
  exact absurd hall (by decide +kernel)

/-- The notations with a sign. -/
theorem Writes.scan_sign (h : m.Writes n cs) {c : Char} (hc : m.sign = [c])
    (hrest : ∀ c ∈ rest.head?, Lexer.isIdentChar c = false) (first : Bool) :
    scan first false c (cs ++ rest) = (wordToken (String.ofList (c :: cs)) n, rest) := by
  obtain ⟨ds, hne, hds, rfl, hlow⟩ := h.digits
  obtain ⟨d, hd, hunder, -⟩ := h.start
  obtain ⟨htake, hdrop⟩ := takeWhile_run h.isIdentChar hrest
  have hmarks : m.front = [] ∧ m.back = [] := by cases m <;> simp_all [sign, front, back]
  rw [hmarks.1, hmarks.2, nil_append, append_nil] at hlow
  have hdigit : ∀ c ∈ cs, c ≠ '_' → ∃ e ∈ ds, Nat.digitChar e = c.toLower := by
    intro c hc hunder
    exact mem_map.1 (hlow ▸ mem_map_of_mem (mem_filter.2 ⟨hc, by simpa using hunder⟩))
  have hhex : ∀ c ∈ cs, isHexPart c = true := by
    have hvalue : ∀ e : Fin 16, isHexPart (Nat.digitChar e) = true := by decide
    intro c hc
    by_cases hunder : c = '_'
    · simp [hunder, isHexPart]
    · obtain ⟨e, he, hce⟩ := hdigit c hc hunder
      rw [← toLower_invariant isHexPart_toUpper, ← hce]
      exact hvalue ⟨e, Nat.lt_of_lt_of_le (hds e he) m.radix_le⟩
  have hhead : (cs ++ rest).head? = some d := by rw [head?_append, hd]; rfl
  have hdhex : isHexDigit d = true := by
    have hpart := hhex d (mem_of_mem_head? hd)
    simpa [isHexPart, hunder] using hpart
  have hradix (sign : String) (hsign : sign = String.singleton c) : scanRadix sign m.radix (cs ++ rest) =
      (wordToken (String.ofList (c :: cs)) (Nat.ofDigits m.radix ds.reverse), rest) := by
    rw [scanRadix, htake, hdrop, numberToken_digitChars hne hds m.radix_le hlow, hsign, String.ofList_cons]
  cases m with
  | hash =>
    cases hc
    have hdirective := scanDirective?_hex hhex h.isIdentChar hrest
    rw [← hradix "#" rfl]
    simp [scan, hdirective, hhead, hdhex, radix]
  | dollar =>
    cases hc
    rw [← hradix "$" rfl]
    simp [scan, scanDollar, htake, sameName_hex hhex, hhead, hdhex, radix]
  | percent =>
    cases hc
    have hbit : d = '0' ∨ d = '1' := by
      obtain ⟨e, he, hde⟩ := hdigit d (mem_of_mem_head? hd) hunder
      have hlower : (d.toLower == '0' || d.toLower == '1') = true := by
        simpa [← hde] using (digitChar_cases (Nat.lt_of_lt_of_le (hds e he) (by decide))).2.2.1 (hds e he)
      rw [toLower_invariant (f := fun c => c == '0' || c == '1') (fun c => by simp [toUpper_beq])] at hlower
      simpa using hlower
    rw [← hradix "%" rfl]
    simp [scan, hhead, hbit, radix]
  | _ => cases hc

/-- The notations without a sign. The marks of those that are tried first are not among the digits. -/
theorem Writes.scan_digits (h : m.Writes n cs) (hm : m.sign = []) (hrest : ∀ c ∈ rest.head?, c ≠ '.') :
    scanNumber cs rest = (wordToken (String.ofList cs) n, rest) := by
  obtain ⟨ds, hne, hds, rfl, hlow⟩ := h.digits
  have htoken {digits : List Char} (hdigits : digits.map Char.toLower = ds.map Nat.digitChar) :=
    numberToken_digitChars hne hds m.radix_le hdigits (String.ofList cs)
  have hchar (d : Nat) (hd : d ∈ ds) := digitChar_cases (Nat.lt_of_lt_of_le (hds d hd) m.radix_le)
  have hlower : (ds.map Nat.digitChar).map Char.toLower = ds.map Nat.digitChar := by
    rw [map_map]
    exact map_congr_left fun d hd => (hchar d hd).2.2.2
  have hhex : ∀ c ∈ ds.map Nat.digitChar, isHexDigit c = true := forall_mem_map.2 fun d hd => (hchar d hd).1
  have hdec (hm : m.radix ≤ 10) : ∀ c ∈ ds.map Nat.digitChar, c.isDigit = true :=
    forall_mem_map.2 fun d hd => (hchar d hd).2.1 (Nat.lt_of_lt_of_le (hds d hd) hm)
  have hbits (hm : m.radix = 2) : ∀ c ∈ ds.map Nat.digitChar, c = '0' ∨ c = '1' :=
    forall_mem_map.2 fun d hd => (hchar d hd).2.2.1 (hm ▸ hds d hd)
  replace hne : ds.map Nat.digitChar ≠ [] := by simpa using hne
  generalize ds.map Nat.digitChar = digits at hlow htoken hlower hhex hdec hbits hne
  have htake {low : List Char} {k : Char} (hk : k ∉ low) : (low.take 2 == ['0', k]) = false := by
    refine beq_eq_false_iff_ne.2 fun htwo => hk (mem_of_mem_take (i := 2) ?_)
    rw [htwo]
    exact .tail _ (.head _)
  have hend {low : List Char} {k : Char} (hk : k ∉ low) : (low.getLast? == some k) = false :=
    beq_eq_false_iff_ne.2 fun h => hk (mem_of_getLast? h)
  have hx : 'x' ∉ digits := fun hmem => absurd (hhex _ hmem) (by decide)
  have hh : 'h' ∉ digits := fun hmem => absurd (hhex _ hmem) (by decide)
  unfold scanNumber
  cases m with
  | zeroX =>
    simp only [show _ = '0' :: 'x' :: digits from hlow.trans (append_nil _)]
    rw [if_pos (by simp)]
    exact congrArg (·, rest) (htoken hlower)
  | suffixH =>
    simp only [show _ = digits ++ ['h'] from hlow]
    rw [if_neg (by simp [htake, hx]), if_pos (by simpa using hhex), dropLast_concat]
    exact congrArg (·, rest) (htoken hlower)
  | zeroB =>
    simp only [show _ = '0' :: 'b' :: digits from hlow.trans (append_nil _)]
    rw [if_neg (by simp), if_neg (by rw [hend (by simp [hh])]; simp), if_pos (by simpa [hne] using hbits rfl)]
    exact congrArg (·, rest) (htoken hlower)
  | suffixB =>
    simp only [show _ = digits ++ ['b'] from hlow]
    rw [if_neg (by simp [htake, hx]), if_neg (by simp), if_neg ?_, if_pos (by simpa using hbits rfl),
      dropLast_concat]
    · exact congrArg (·, rest) (htoken hlower)
    · -- A single digit leaves nothing behind `0b`, and else the `b` at the end is no digit.
      obtain _ | ⟨d, _ | ⟨d', digits⟩⟩ := digits
      · exact absurd rfl hne
      · simp
      · simp
  | decimal =>
    have hb : 'b' ∉ digits := fun hmem => absurd (hdec (by decide) _ hmem) (by decide)
    simp only [show _ = digits from hlow.trans (append_nil _)]
    rw [if_neg (by simp [htake, hx]), if_neg (by simp [hend, hh]), if_neg (by simp [htake, hb]),
      if_neg (by simp [hend, hb]), if_pos (by simpa using hdec (by decide)), scanFraction, if_neg ?_]
    · exact congrArg (·, rest) (htoken (hlow.trans (append_nil _)))
    · cases rest with
      | nil => simp
      | cons c rest => simp [hrest c rfl]
  | _ => cases hm

end Numeral

/-- A number in any notation, where an operand can start and with nothing behind it that continues it, is one token:
its value, or a bad token if it has no place in a word of 64 bits with a sign. -/
theorem lexFrom_numeral (m : Numeral) (n : Nat) (cs rest : List Char) (h : m.Writes n cs)
    (hrest : ∀ c ∈ rest.head?, isIdentChar c = false ∧ c ≠ '.') (total : Nat) (last : Option TokenKind)
    (hlast : ∀ k ∈ last, k.endsOperand = false) : lexFrom total last (m.sign ++ cs ++ rest) =
      ⟨total - byteLength (m.sign ++ cs ++ rest), wordToken (String.ofList (m.sign ++ cs)) n⟩ ::
        lexFrom total (some (wordToken (String.ofList (m.sign ++ cs)) n)) rest := by
  have hafter : last.any (·.endsOperand) = false := by
    cases last with
    | none => rfl
    | some k => exact hlast k rfl
  have hident : ∀ c ∈ rest.head?, isIdentChar c = false := fun c hc => (hrest c hc).1
  cases hsign : m.sign with
  | nil =>
    obtain ⟨c, hc, -, hdigit⟩ := h.start
    obtain ⟨cs, rfl⟩ : ∃ cs', cs = c :: cs' := ⟨cs.tail, (cons_head?_tail hc).symm⟩
    obtain ⟨htake, hdrop⟩ := takeWhile_run (fun c hc => h.isIdentChar c (.tail _ hc)) hident
    have hblank : isBlank c = false := by
      have hrange : 48 ≤ c.toNat ∧ c.toNat ≤ 57 := by
        simpa [Char.isDigit, UInt32.le_iff_toNat_le] using hdigit hsign
      unfold isBlank
      grind
    rw [nil_append, cons_append, lexFrom_token hblank, scan_digit (hdigit hsign), htake, hdrop,
      h.scan_digits hsign fun c hc => (hrest c hc).2]
  | cons c sign =>
    obtain ⟨rfl, hblank⟩ : sign = [] ∧ isBlank c = false := by cases m <;> cases hsign <;> decide
    rw [append_assoc, singleton_append, lexFrom_token hblank, hafter, h.scan_sign hsign hident]
    rfl

/-- A hexadecimal number that starts as a binary one does, behind an operator and in front of a bracket. -/
theorem lexFrom_numeral_mixed :
    let cs := ['0', 'b', '1', '_', 'F', 'H']
    Numeral.suffixH.Writes 0x0b1f cs ∧
      (lexFrom 7 (some (.punct .plus)) (cs ++ [')'])).head? = some ⟨0, .number "0b1_FH" 0x0b1f⟩ := by
  intro cs
  have hwrites : Numeral.suffixH.Writes 0x0b1f cs :=
    ⟨⟨'0', rfl, by decide, fun _ => rfl⟩, [0, 11, 1, 15], by decide, by decide, by decide, by decide⟩
  have hbracket : ∀ c ∈ [')'].head?, isIdentChar c = false ∧ c ≠ '.' := by simp [isIdentChar]
  have hplus : ∀ k ∈ some (TokenKind.punct .plus), k.endsOperand = false := by simp [TokenKind.endsOperand]
  have hlex := lexFrom_numeral .suffixH 0x0b1f cs [')'] hwrites hbracket 7 (some (.punct .plus)) hplus
  exact ⟨hwrites, congrArg head? hlex⟩

end SpectrumAsm
