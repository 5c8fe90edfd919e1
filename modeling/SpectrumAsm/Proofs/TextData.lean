/-
Data written as text: pairs of hexadecimal digits, patterns drawn with characters, and messages.

What such a pragma emits depends on the text alone, and is said here in terms of its characters.
-/
import Mathlib.Data.List.Induction
import Mathlib.Data.Nat.Bitwise
import SpectrumAsm.Proofs.Room
import SpectrumAsm.Proofs.Sizes

namespace SpectrumAsm

open Text Option Step Pragma

/-- If there is room for them, a pragma puts these bytes behind all others. -/
def Pragma.Lays (p : Pragma) (a : Assembly) (bytes : List UInt8) : Prop :=
  a.HasRoom false bytes.length → ∀ label, ∃ c, (runPragma label p).run.run a = (.ok (), c) ∧
    c.segments = a.extended bytes.toArray

variable {a b : Assembly} {e : Expr} {s : String} {cs : List Char} {bytes : List UInt8}

theorem Pragma.lays {p : Pragma} (hp : p.isFile = false) (h : p.data.run.run a = (.ok (.ofBytes bytes), b)) :
    p.Lays a bytes := by
  intro hroom label
  obtain ⟨hasked, hput, -⟩ := Puts.pragma label p a _ b h
  rw [hp] at hput
  obtain ⟨c, hc, he⟩ := hput (by simpa [Code.ofBytes] using hroom)
  refine ⟨c, hc, ?_⟩
  rw [Assembly.emit_segments he, Assembly.extended_congr hasked.segments (Noted.ofAsked hasked).setup]
  rfl

/-! ## Hexadecimal digits -/

theorem digits_of_byte (b : UInt8) : digitValue 16 (b.toNat / 16).digitChar = some (b.toNat / 16) ∧
    digitValue 16 (b.toNat % 16).digitChar = some (b.toNat % 16) ∧
    UInt8.ofNat (16 * (b.toNat / 16) + b.toNat % 16) = b := by
  have hdigit : ∀ n < 16, digitValue 16 n.digitChar = some n := by decide
  have hlt := b.toNat_lt
  exact ⟨hdigit _ (by omega), hdigit _ (by omega), by rw [Nat.div_add_mod, UInt8.ofNat_toNat]⟩

/-- Text of pairs that write bytes. The first place of a pair may hold a plus sign. -/
inductive HexPairs : List Char → List UInt8 → Prop where
  | nil : HexPairs [] []
  | cons {c d : Char} {high low : Nat} {cs : List Char} {bytes : List UInt8}
    (hc : digitValue 16 c = some high ∨ c = '+' ∧ high = 0) (hd : digitValue 16 d = some low)
    (h : HexPairs cs bytes) : HexPairs (c :: d :: cs) (UInt8.ofNat (16 * high + low) :: bytes)

theorem readBounded_pair {c d : Char} {n : Nat} : readBounded 16 256 (String.ofList [c, d]) = some n ↔
    ∃ high low, (digitValue 16 c = some high ∨ c = '+' ∧ high = 0) ∧ digitValue 16 d = some low ∧
      16 * high + low = n := by
  have hlt {c : Char} {n : Nat} (h : digitValue 16 c = some n) : n < 16 := by
    simpa using (filter_eq_some_iff.1 h).2
  unfold readBounded
  rw [String.toList_ofList]
  split
  · next heq =>
    cases heq
    have hplus : digitValue 16 '+' = none := by decide
    simp only [readNat, readDigits, hplus, filter_eq_some_iff, decide_eq_true_eq]
    grind
  · next hne =>
    have hc : c ≠ '+' := fun h => hne _ (by rw [h])
    simp only [readNat, readDigits, hc, filter_eq_some_iff, decide_eq_true_eq]
    cases hhigh : digitValue 16 c <;> cases hlow : digitValue 16 d <;> grind

theorem hexPairs_iff : hexPairs cs = some bytes ↔ HexPairs cs bytes := by
  fun_induction hexPairs cs generalizing bytes with
  | case1 => exact ⟨fun h => by cases h; exact .nil, fun h => by cases h; rfl⟩
  | case2 c d rest ih =>
    simp only [bind_eq_bind, bind_eq_some_iff, readBounded_pair, ih]
    constructor
    · rintro ⟨_, ⟨high, low, hc, hd, rfl⟩, bs, hbs, ⟨⟩⟩
      exact .cons hc hd hbs
    · rintro (_ | ⟨hc, hd, hbs⟩)
      exact ⟨_, ⟨_, _, hc, hd, rfl⟩, _, hbs, rfl⟩
  | case3 c => exact ⟨nofun, nofun⟩

/-- Text is accepted exactly if it consists of pairs that write bytes. These are emitted, and nothing is if the
text is refused. Every list of bytes can be written in digits. -/
theorem hex_text_accepted (h : (evalNow e).run.run a = (.ok (.str s), b)) :
    (∀ bytes, HexPairs s.toList bytes → (defh e).Lays a bytes) ∧
      ((¬ ∃ bytes, HexPairs s.toList bytes) → b.segments = a.segments ∧ Fault.defhDigits.code = "Z0094" ∧
        ∀ label, (runPragma label (.defh e)).run.run a = (.error .defhDigits, b)) ∧
      ∀ bytes, HexPairs (bytes.flatMap fun b => [(b.toNat / 16).digitChar, (b.toNat % 16).digitChar]) bytes := by
  have hrun : (hexOf e).run.run a = ((hexPairs s.toList).elim (.error .defhDigits) .ok, b) := by
    refine (run_bind_ok h).trans ?_
    dsimp only
    cases hexPairs s.toList <;> rfl
  refine ⟨fun bytes hbytes => lays rfl (b := b) ?_, fun hno => ?_, fun bytes => ?_⟩
  · rw [hexPairs_iff.2 hbytes] at hrun
    exact run_bind_ok hrun
  · have hnone : hexPairs s.toList = none :=
      eq_none_iff_forall_ne_some.2 fun bytes hbytes => hno ⟨bytes, hexPairs_iff.1 hbytes⟩
    have hasked := evalNow_asked e a
    rw [h] at hasked
    rw [hnone] at hrun
    exact ⟨hasked.segments, rfl, fun _ => run_bind_error hrun⟩
  · induction bytes with
    | nil => exact .nil
    | cons b bytes ih =>
      obtain ⟨hhigh, hlow, hb⟩ := digits_of_byte b
      have hpair := ih.cons (.inl hhigh) hlow
      rwa [hb] at hpair

/-- A plus sign counts as a zero. -/
theorem hex_text_accepted_plus : (evalNow (.text "+5")).run.run (.new {}) = (.ok (.str "+5"), .new {}) ∧
    (defh (.text "+5")).Lays (.new {}) [5] := by
  have h : (evalNow (.text "+5")).run.run (.new {}) = (.ok (.str "+5"), .new {}) := rfl
  exact ⟨h, (hex_text_accepted h).1 [UInt8.ofNat (16 * 0 + 5)] (.cons (.inr ⟨rfl, rfl⟩) rfl .nil)⟩

/-! ## Drawn patterns -/

/-- The bits of bytes, the highest bit of a byte first. -/
def bitsOf (bytes : List UInt8) : List Bool := bytes.flatMap fun b => [7, 6, 5, 4, 3, 2, 1, 0].map b.toNat.testBit

/-- The fewest bytes that hold some bits, from the first place on or up to the last one, with zeros elsewhere. -/
def Drawn (bits : List Bool) (toEnd : Bool) (bytes : List UInt8) : Prop :=
  let zeros := List.replicate (8 * bytes.length - bits.length) false
  bytes.length = (bits.length + 7) / 8 ∧ bitsOf bytes = if toEnd then zeros ++ bits else bits ++ zeros

theorem bitsOf_bitsValue {bits : List Bool} (h : bits.length = 8) : bitsOf [UInt8.ofNat (bitsValue bits)] = bits := by
  match bits, h with
  | [i, j, k, l, m, n, o, p], _ =>
    revert i j k l m n o p
    decide

theorem bitsOf_packBits {n m : Nat} {bits : List Bool} (hm : bits.length = 8 * m) (hn : m ≤ n) :
    (packBits n bits).length = m ∧ bitsOf (packBits n bits) = bits := by
  induction m generalizing n bits with
  | zero =>
    obtain rfl : bits = [] := List.eq_nil_of_length_eq_zero hm
    cases n <;> exact ⟨rfl, rfl⟩
  | succ m ih =>
    obtain ⟨n, rfl⟩ : ∃ n', n = n' + 1 := ⟨n - 1, by omega⟩
    obtain ⟨hlength, hrest⟩ := @ih n (bits.drop 8) (by simp; omega) (by omega)
    have hfirst : bitsOf [UInt8.ofNat (bitsValue (bits.take 8))] = bits.take 8 := bitsOf_bitsValue (by simp; omega)
    rw [packBits, if_neg (by simp [← List.length_eq_zero_iff]; omega)]
    refine ⟨by simp [hlength], ?_⟩
    rw [← List.take_append_drop 8 bits]
    nth_rewrite 3 [← hfirst]
    nth_rewrite 3 [← hrest]
    simp [bitsOf]

theorem packed_drawn (bits : List Bool) : Drawn bits false (packLeft bits) ∧ Drawn bits true (packRight bits) := by
  have hpack {padded : List Bool} (h : padded.length = bits.length + (padding bits).length) :=
    @bitsOf_packBits (bits.length + 1) ((bits.length + 7) / 8) padded (by simp [h, padding]; omega) (by omega)
  obtain ⟨hleft, hleft'⟩ := @hpack (bits ++ padding bits) (by simp)
  obtain ⟨hright, hright'⟩ := @hpack (padding bits ++ bits) (by simp [Nat.add_comm])
  have hpadding : 8 * ((bits.length + 7) / 8) - bits.length = (8 - bits.length % 8) % 8 := by omega
  unfold Drawn packLeft packRight
  rw [hleft, hright, hleft', hright', hpadding]
  exact ⟨⟨rfl, rfl⟩, rfl, rfl⟩

/-- What is drawn is the pattern without the white space at its two ends. If spaces only divide it, it is drawn
without them and without the character that aligns it. -/
theorem patterns_drawn (h : (evalNow e).run.run a = (.ok (.str s), b)) (hs : trimChars s.toList ≠ []) :
    let ones (cs : List Char) := cs.map fun c => decide (c ∉ [' ', '.', '-', '_'])
    let dense (cs : List Char) := cs.filter (· != ' ')
    (∃ bytes, (defg e).Lays a bytes ∧ Drawn (ones (trimChars s.toList)) false bytes) ∧
      ∃ bytes, (defgx e).Lays a bytes ∧ match trimChars s.toList with
        | '<' :: cs => Drawn (ones (dense cs)) false bytes
        | '>' :: cs => Drawn (ones (dense cs)) true bytes
        | cs => Drawn (ones (dense cs)) false bytes := by
  have hrun (bytes : String → List UInt8) : (patternOf bytes e).run.run a = (.ok (bytes s), b) := by
    refine (run_bind_ok h).trans ?_
    dsimp only
    rw [if_neg (by simpa using hs)]
    rfl
  have hones : (fun c => decide (c ∉ [' ', '.', '-', '_'])) = patternBit := by
    funext c
    simp [patternBit, Bool.beq_eq_decide_eq, Bool.and_assoc]
  dsimp only
  rw [hones]
  refine ⟨⟨_, lays rfl (run_bind_ok (hrun _)), (packed_drawn _).1⟩,
    _, lays rfl (run_bind_ok (hrun _)), ?_⟩
  unfold alignedPatternBytes
  dsimp only
  generalize trimChars s.toList = cs
  split
  · exact (packed_drawn _).1
  · exact (packed_drawn _).2
  · next hleft hright =>
    split
    · exact (hleft _ rfl).elim
    · exact (hright _ rfl).elim
    · exact (packed_drawn _).1

/-- White space in front does not move the pattern. -/
theorem patterns_drawn_blanks : (evalNow (.text "  X")).run.run (.new {}) = (.ok (.str "  X"), .new {}) ∧
    ∃ bytes, (defg (.text "  X")).Lays (.new {}) bytes ∧ Drawn [true] false bytes := by
  have h : (evalNow (.text "  X")).run.run (.new {}) = (.ok (.str "  X"), .new {}) := rfl
  exact ⟨h, (patterns_drawn h (by decide)).1⟩

/-! ## Messages -/

/-- The ways to write a byte of a message: as the character of its code, or by two digits. -/
inductive WritesByte : UInt8 → List Char → Prop where
  | plain {c : Char} {b : UInt8} (hcode : c.toNat = b.toNat) (hc : c ≠ '\\') : WritesByte b [c]
  | digits {c d : Char} {high low : Nat} (hc : digitValue 16 c = some high) (hd : digitValue 16 d = some low) :
    WritesByte (UInt8.ofNat (16 * high + low)) ['\\', 'x', c, d]

theorem WritesByte.messageFrom {b : UInt8} (h : WritesByte b cs) (rest : List Char) :
    messageFrom .plain (cs ++ rest) = b :: messageFrom .plain rest := by
  cases h with
  | plain hcode hc => simp [messageFrom, charByte, hc, hcode]
  | digits hc hd => simp [messageFrom, hc, hd, Nat.mul_comm]

theorem writesByte_exists (bytes : List UInt8) : ∃ parts, List.Forall₂ WritesByte bytes parts := by
  induction bytes with
  | nil => exact ⟨[], .nil⟩
  | cons b bytes ih =>
    obtain ⟨parts, hparts⟩ := ih
    obtain ⟨hhigh, hlow, hb⟩ := digits_of_byte b
    have hwrites := WritesByte.digits hhigh hlow
    rw [hb] at hwrites
    exact ⟨_ :: parts, .cons hwrites hparts⟩

/-- Every list of bytes can be written in a message. However it is written, it is read back and emitted: no
character behind two digits is taken for a third one. -/
theorem message_bytes_written (bytes : List UInt8) : (∃ parts, List.Forall₂ WritesByte bytes parts) ∧
    ∀ parts, List.Forall₂ WritesByte bytes parts →
      messageBytes (String.ofList parts.flatten) = bytes ∧
        ∀ a, (defm (.text (String.ofList parts.flatten))).Lays a bytes := by
  refine ⟨writesByte_exists bytes, fun parts h => ?_⟩
  have hread : messageBytes (String.ofList parts.flatten) = bytes := by
    unfold messageBytes
    rw [String.toList_ofList]
    induction h with
    | nil => rfl
    | cons hb _ ih => rw [List.flatten_cons, hb.messageFrom, ih]
  refine ⟨hread, fun a => lays rfl (b := a) ?_⟩
  exact congrArg (fun bytes => (Except.ok (Code.ofBytes bytes), a)) hread

theorem message_bytes_written_digit : messageBytes "\\xABC" = [0xAB, 0x43] :=
  have hdigits : WritesByte (UInt8.ofNat (16 * 10 + 11)) ['\\', 'x', 'A', 'B'] := .digits rfl rfl
  ((message_bytes_written _).2 [_, ['C']] (.cons hdigits (.cons (.plain rfl nofun) .nil))).1

end SpectrumAsm
