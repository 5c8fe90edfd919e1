/-
Bytes of a message for the screen of the Spectrum. A backslash introduces a control code by a
letter, a byte by one or two hexadecimal digits, or protects the character after it.
-/
import SpectrumAsm.Text.Digits

namespace SpectrumAsm.Text

def charByte (c : Char) : UInt8 := UInt8.ofNat c.toNat

/-- The byte that a backslash and a character other than `x` stand for. -/
def escapeByte (c : Char) : UInt8 :=
  match c with
  | 'i' => 0x10
  | 'p' => 0x11
  | 'f' => 0x12
  | 'b' => 0x13
  | 'I' => 0x14
  | 'o' => 0x15
  | 'a' => 0x16
  | 't' => 0x17
  | 'P' => 0x60
  | 'C' => 0x7F
  | '0' => 0x00
  | _ => charByte c

/-- Where reading stands: between characters, after a backslash, after `\x`, or after its first
digit. -/
inductive MessageState where
  | plain
  | escape
  | hex
  | digit (value : Nat)

def messageFrom : MessageState → List Char → List UInt8
  | .plain, [] => []
  | .escape, [] => [0x5C]
  | .hex, [] => [0x78]
  | .digit value, [] => [UInt8.ofNat value]
  | .plain, c :: cs =>
    if c == '\\' then messageFrom .escape cs else charByte c :: messageFrom .plain cs
  | .escape, c :: cs =>
    if c == 'x' then messageFrom .hex cs else escapeByte c :: messageFrom .plain cs
  | .hex, c :: cs =>
    match digitValue 16 c with
    | some d => messageFrom (.digit d) cs
    | none =>
      0x78 :: if c == '\\' then messageFrom .escape cs else charByte c :: messageFrom .plain cs
  | .digit value, c :: cs =>
    match digitValue 16 c with
    | some d => UInt8.ofNat (value * 16 + d) :: messageFrom .plain cs
    | none =>
      UInt8.ofNat value ::
        if c == '\\' then messageFrom .escape cs else charByte c :: messageFrom .plain cs

def messageBytes (raw : String) : List UInt8 := messageFrom .plain raw.toList

end SpectrumAsm.Text
