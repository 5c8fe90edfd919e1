/-
From a line of text to its tokens.

Each scanner is handed the characters after the one that selects it and returns a token with the characters it
leaves, always an end of what it was given (`scan_suffix`).
-/
import SpectrumAsm.Real.Binary64
import SpectrumAsm.Text.Digits
import SpectrumAsm.Token

namespace SpectrumAsm.Lexer

open SpectrumAsm.Text

def isIdentStart (c : Char) : Bool := c.isAlpha || c == '_'

def isIdentChar (c : Char) : Bool := c.isAlphanum || c == '_'

/-- Words that make a hash sign at the start of a line a directive. -/
def directives : List String :=
  ["define", "undef", "ifdef", "ifndef", "if", "ifmod", "ifnmod", "else", "endif", "include"]

/-- A comment runs to the end of the line; white space at its start is dropped. -/
def scanComment (cs : List Char) : TokenKind × List Char :=
  (.comment (String.ofList (cs.dropWhile isBlank)), [])

def scanDirective? (cs : List Char) : Option (TokenKind × List Char) :=
  let name := downcase (String.ofList (cs.takeWhile isIdentChar))
  if name ∈ directives then some (.directive name, cs.dropWhile isIdentChar) else none

def scanParam (cs : List Char) : TokenKind × List Char :=
  let inner := cs.dropWhile isBlank
  let name := String.ofList (inner.takeWhile isIdentChar)
  let rest := (inner.dropWhile isIdentChar).dropWhile isBlank
  if !name.isEmpty && rest.take 2 == ['\x7d', '\x7d'] then (.param name, rest.drop 2)
  else (.bad ("\x7b\x7b" ++ name), rest)

def numberToken (lexeme : String) (radix : Nat) (digits : List Char) : TokenKind :=
  match readWord64 radix digits with
  | some value => .number lexeme value
  | none => .bad lexeme

/-- A number in a radix that its sign announces. Underscores between the digits are skipped. -/
def scanRadix (sign : String) (radix : Nat) (cs : List Char) : TokenKind × List Char :=
  let digits := cs.takeWhile isIdentChar
  (numberToken (sign ++ String.ofList digits) radix (digits.filter (· != '_')), cs.dropWhile isIdentChar)

/-- After a dollar sign: the loop counter, a hexadecimal number, or nothing that belongs to it. -/
def scanDollar (cs : List Char) : TokenKind × List Char :=
  if sameName (String.ofList (cs.takeWhile isIdentChar)) "cnt" then
    (.counter, cs.dropWhile isIdentChar)
  else if cs.head?.any isHexDigit then scanRadix "$" 16 cs
  else (.punct .dollar, cs)

def scanDotted (cs : List Char) : TokenKind × List Char :=
  let name := String.ofList (cs.takeWhile isIdentChar)
  (if sameName name "cnt" then .counter else .ident name, cs.dropWhile isIdentChar)

def realToken (lexeme : List Char) (whole part : List Char) (exponent : Int) : TokenKind :=
  let lexeme := String.ofList lexeme
  match readNat 10 (whole ++ part) with
  | some digits => .real lexeme (Real.ofDecimal digits (exponent - part.length))
  | none => .bad lexeme

/-- Digits behind a sign, if there is one. -/
def signedDigits (sign digits : List Char) : Option (List Char × Int × List Char) :=
  let run := digits.takeWhile Char.isDigit
  (readNat 10 run).map fun n =>
    (sign ++ run, if sign == ['-'] then -(n : Int) else n, digits.dropWhile Char.isDigit)

/-- Signed exponent digits: their text, their value and the rest. `none` if no digit follows. -/
def scanExponent (cs : List Char) : Option (List Char × Int × List Char) :=
  if cs.head? == some '+' || cs.head? == some '-' then signedDigits (cs.take 1) (cs.drop 1)
  else signedDigits [] cs

/-- A number with digits on both sides of its point, and what follows them: perhaps an exponent. -/
def scanAfterPoint (plain part tail : List Char) : TokenKind × List Char :=
  let lexeme := plain ++ '.' :: part
  match if tail.head?.any (·.toLower == 'e') then scanExponent (tail.drop 1) else none with
  | some (text, exponent, rest) => (realToken (lexeme ++ 'e' :: text) plain part exponent, rest)
  | none => (realToken lexeme plain part 0, tail)

/-- What follows the whole digits of a decimal number: a point with further digits, or nothing. -/
def scanFraction (run plain rest : List Char) : TokenKind × List Char :=
  let part := (rest.drop 1).takeWhile Char.isDigit
  if rest.head? == some '.' && !part.isEmpty then
    scanAfterPoint plain part ((rest.drop 1).dropWhile Char.isDigit)
  else (numberToken (String.ofList run) 10 plain, rest)

/-- A number that starts with a digit: the whole run of name characters, and what follows it. The
notation is told by the ends of the run: hexadecimal `0x1F` and `1Fh`, binary `0b101` and `101b`,
decimal `12`, `1.5` and `2e-3`. -/
def scanNumber (run rest : List Char) : TokenKind × List Char :=
  let plain := run.filter (· != '_')
  let low := plain.map Char.toLower
  let whole (radix : Nat) (digits : List Char) := (numberToken (String.ofList run) radix digits, rest)
  let isBit (c : Char) : Bool := c == '0' || c == '1'
  if low.take 2 == ['0', 'x'] then whole 16 (low.drop 2)
  else if low.getLast? == some 'h' && low.dropLast.all isHexDigit then whole 16 low.dropLast
  else if low.take 2 == ['0', 'b'] && !(low.drop 2).isEmpty && (low.drop 2).all isBit then
    whole 2 (low.drop 2)
  else if low.getLast? == some 'b' && low.dropLast.all isBit then whole 2 low.dropLast
  else if low.all Char.isDigit then scanFraction run plain rest
  else
    let mantissa := low.takeWhile (· != 'e')
    let exponent := (low.dropWhile (· != 'e')).drop 1
    if low.contains 'e' && mantissa.all Char.isDigit then
      if !exponent.isEmpty then
        match readNat 10 exponent with
        | some n => (realToken low mantissa [] n, rest)
        | none => (.bad (String.ofList run), rest)
      else if rest.head? == some '+' || rest.head? == some '-' then
        match scanExponent rest with
        | some (text, n, after) => (realToken (low ++ text) mantissa [] n, after)
        | none => (.bad (String.ofList run), rest)
      else (.bad (String.ofList run), rest)
    else (.bad (String.ofList run), rest)

def quotedToken (quote : Char) (raw : List Char) : TokenKind :=
  if quote == '\x22' then .text (String.ofList raw)
  else if raw.isEmpty then .bad "\x27\x27"
  else .char (String.ofList raw)

/-- A quoted text, after its opening quote, when the characters `read` (last one first) are already
part of it. A backslash protects the character after it. -/
def scanQuoted (quote : Char) (read : List Char) : List Char → TokenKind × List Char
  | [] => (.bad (String.ofList (quote :: read.reverse)), [])
  | ['\\'] => (.bad (String.ofList (quote :: ('\\' :: read).reverse)), [])
  | '\\' :: c :: cs => scanQuoted quote (c :: '\\' :: read) cs
  | c :: cs =>
    if c == quote then (quotedToken quote read.reverse, cs) else scanQuoted quote (c :: read) cs

/-- Further parts of a dotted name, as far as each dot is followed by a name. -/
def scanParts : List Char → List Char × List Char
  | [] => ([], [])
  | '.' :: c :: cs =>
    if isIdentStart c then
      let more := scanParts cs
      ('.' :: c :: more.1, more.2)
    else ([], '.' :: c :: cs)
  | c :: cs =>
    if isIdentChar c then
      let more := scanParts cs
      (c :: more.1, more.2)
    else ([], c :: cs)

def scanIdent (c : Char) (cs : List Char) : TokenKind × List Char :=
  let head := String.ofList (c :: cs.takeWhile isIdentChar)
  if sameName head "af" && (cs.dropWhile isIdentChar).head? == some '\x27' then
    (.ident (head ++ "\x27"), (cs.dropWhile isIdentChar).drop 1)
  else
    let more := scanParts cs
    (.ident (String.ofList (c :: more.1)), more.2)

/-- The token that starts with the character `c`, followed by `cs`. It matters whether it is the
first of its line and whether the token before it ends an operand. -/
def scan (first afterOperand : Bool) (c : Char) (cs : List Char) : TokenKind × List Char :=
  if c == ';' then scanComment cs
  else if c == '/' && cs.head? == some '/' then scanComment (cs.drop 1)
  else
    match if c == '#' && first then scanDirective? cs else none with
    | some result => result
    | none =>
      if c == '\x7b' && cs.head? == some '\x7b' then scanParam (cs.drop 1)
      else if c == '#' && cs.head?.any isHexDigit then scanRadix "#" 16 cs
      else if c == '$' then scanDollar cs
      else if c == '%' && (cs.head? == some '0' || cs.head? == some '1') && !afterOperand then
        scanRadix "%" 2 cs
      else if c == '.' && cs.head?.any isIdentStart then scanDotted cs
      else
        match cs.head?.bind (Punct.ofPair? c) with
        | some p => (.punct p, cs.drop 1)
        | none =>
          match Punct.ofChar? c with
          | some p => (.punct p, cs)
          | none =>
            if c.isDigit then
              scanNumber (c :: cs.takeWhile isIdentChar) (cs.dropWhile isIdentChar)
            else if c == '\x27' || c == '\x22' then scanQuoted c [] cs
            else if isIdentStart c then scanIdent c cs
            else (.bad (String.singleton c), cs)

/-! ## What a scanner leaves -/

theorem scanQuoted_suffix (quote : Char) (read cs : List Char) :
    (scanQuoted quote read cs).2 <:+ cs := by
  fun_induction scanQuoted quote read cs with
  | case1 => exact List.suffix_refl _
  | case2 => exact List.nil_suffix
  | case3 read c cs ih => exact ih.trans ((List.suffix_cons c cs).trans (List.suffix_cons _ _))
  | case4 read c cs => exact List.suffix_cons c cs
  | case5 read c cs _ _ _ ih => exact ih.trans (List.suffix_cons c cs)

theorem scanParts_suffix (cs : List Char) : (scanParts cs).2 <:+ cs := by
  fun_induction scanParts cs with
  | case1 => exact List.suffix_refl _
  | case2 c cs _ more ih =>
    exact ih.trans ((List.suffix_cons c cs).trans (List.suffix_cons _ _))
  | case3 c cs _ => exact List.suffix_refl _
  | case4 c cs _ _ more ih => exact ih.trans (List.suffix_cons c cs)
  | case5 c cs _ _ => exact List.suffix_refl _

theorem signedDigits_suffix {sign digits text rest : List Char} {n : Int}
    (h : signedDigits sign digits = some (text, n, rest)) : rest <:+ digits := by
  obtain ⟨_, _, h⟩ := Option.map_eq_some_iff.1 h
  cases h
  exact List.dropWhile_suffix _

theorem scanExponent_suffix {cs text rest : List Char} {n : Int}
    (h : scanExponent cs = some (text, n, rest)) : rest <:+ cs := by
  unfold scanExponent at h
  split at h
  · exact (signedDigits_suffix h).trans (List.drop_suffix 1 cs)
  · exact signedDigits_suffix h

theorem scanAfterPoint_suffix (plain part tail : List Char) : (scanAfterPoint plain part tail).2 <:+ tail := by
  unfold scanAfterPoint
  dsimp only
  split
  · next h =>
    split at h
    · exact (scanExponent_suffix h).trans (List.drop_suffix 1 tail)
    · cases h
  · exact List.suffix_refl _

theorem scanFraction_suffix (run plain rest : List Char) : (scanFraction run plain rest).2 <:+ rest := by
  unfold scanFraction
  dsimp only
  split
  · exact ((scanAfterPoint_suffix ..).trans (List.dropWhile_suffix _)).trans (List.drop_suffix 1 rest)
  · exact List.suffix_refl _

theorem scanNumber_suffix (run rest : List Char) : (scanNumber run rest).2 <:+ rest := by
  unfold scanNumber
  dsimp only
  repeat' split
  all_goals first
    | exact List.suffix_refl _
    | exact scanFraction_suffix ..
    | exact scanExponent_suffix (by assumption)

/-- A scanner leaves an end of the characters after the one it started with. -/
theorem scan_suffix (first afterOperand : Bool) (c : Char) (cs : List Char) :
    (scan first afterOperand c cs).2 <:+ cs := by
  unfold scan
  split
  · exact List.nil_suffix
  split
  · exact List.nil_suffix
  split
  next result h =>
    split at h
    · simp only [scanDirective?] at h
      split at h
      · obtain rfl := Option.some.inj h; exact List.dropWhile_suffix _
      · simp at h
    · simp at h
  · split
    · unfold scanParam
      dsimp only
      have inner := ((List.dropWhile_suffix
        (l := (List.drop 1 cs).dropWhile isBlank |>.dropWhile isIdentChar) isBlank).trans
          (List.dropWhile_suffix _)).trans
          ((List.dropWhile_suffix isBlank).trans (List.drop_suffix 1 cs))
      split
      · exact (List.drop_suffix 2 _).trans inner
      · exact inner
    split
    · exact List.dropWhile_suffix _
    split
    · unfold scanDollar
      split
      · exact List.dropWhile_suffix _
      split
      · exact List.dropWhile_suffix _
      · exact List.suffix_refl _
    split
    · exact List.dropWhile_suffix _
    split
    · exact List.dropWhile_suffix _
    split
    · exact List.drop_suffix 1 cs
    split
    · exact List.suffix_refl _
    split
    · exact (scanNumber_suffix _ _).trans (List.dropWhile_suffix _)
    split
    · exact scanQuoted_suffix ..
    split
    · unfold scanIdent
      dsimp only
      split
      · exact (List.drop_suffix 1 _).trans (List.dropWhile_suffix _)
      · exact scanParts_suffix cs
    · exact List.suffix_refl _

/-! ## Lines -/

def byteLength : List Char → Nat
  | [] => 0
  | c :: cs => c.utf8Size + byteLength cs

theorem byteLength_nil : byteLength [] = 0 := rfl

theorem byteLength_cons (c : Char) (cs : List Char) : byteLength (c :: cs) = c.utf8Size + byteLength cs := rfl

/-- The tokens of the rest `cs` of a line of `total` bytes, after the token `last`. -/
def lexFrom (total : Nat) (last : Option TokenKind) : List Char → List Token
  | [] => []
  | c :: cs =>
    if isBlank c then lexFrom total last cs
    else
      let found := scan last.isNone (last.any (·.endsOperand)) c cs
      ⟨total - byteLength (c :: cs), found.1⟩ :: lexFrom total (some found.1) found.2
termination_by cs => cs.length
decreasing_by
  · simp
  · have := (scan_suffix last.isNone (last.any (·.endsOperand)) c cs).length_le
    simp only [List.length_cons]
    omega

def lexLine (line : String) : List Token :=
  lexFrom (byteLength line.toList) none line.toList

def lexSource (source : String) : List (List Token) :=
  (lines source).map lexLine

end SpectrumAsm.Lexer
