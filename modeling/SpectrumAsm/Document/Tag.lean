/-
Tags of values, and the lines at the start of a document that say its version and give names to the
beginnings of tags.
-/
import SpectrumAsm.Document.Glyph
import SpectrumAsm.Document.Token
import SpectrumAsm.Text.Digits

namespace SpectrumAsm.Document

/-- A character of a tag. Commas and brackets belong to it only where the tag is written in full. -/
def isTagChar (full : Bool) (c : Char) : Bool :=
  isNameChar c || ";/?:@&=+$.%!~*\x27()".toList.contains c || (full && [',', '[', ']'].contains c)

def followers (octet : Nat) : Option Nat :=
  if octet < 0x80 then some 0
  else if octet < 0xC0 then none
  else if octet < 0xE0 then some 1
  else if octet < 0xF0 then some 2
  else if octet < 0xF8 then some 3
  else none

/-- The bytes of the rest of a tag, and what follows it. A percent sign and two digits stand for a
byte, and `left` more bytes of a character are to come. -/
def tagOctets (full : Bool) (left : Nat) : List Glyph → Option (Octets × List Glyph)
  | [] => if left == 0 then some ([], []) else none
  | g :: gs =>
    if g.char == '%' then
      match gs with
      | h :: l :: rest => do
        let high ← Text.digitValue 16 h.char
        let low ← Text.digitValue 16 l.char
        let octet := high * 16 + low
        let left ←
          if left == 0 then followers octet
          else if 0x80 ≤ octet && octet < 0xC0 then some (left - 1)
          else none
        let (more, rest) ← tagOctets full left rest
        return (UInt8.ofNat octet :: more, rest)
      | _ => none
    else if left != 0 then none
    else if isTagChar full g.char then do
      let (more, rest) ← tagOctets full 0 gs
      return (UInt8.ofNat g.char.toNat :: more, rest)
    else some ([], g :: gs)

def octetsOf (cs : List Char) : Octets := cs.map fun c => UInt8.ofNat c.toNat

/-- A part of a tag that is not empty, and what follows it; it counts up to the first zero byte. -/
def tagPart (full : Bool) (gs : List Glyph) : Option (Octets × List Glyph) := do
  let (octets, rest) ← tagOctets full 0 gs
  if octets.isEmpty then none else some (octets.takeWhile (· != 0), rest)

def fullTag (gs : List Glyph) : Option (Token × List Glyph) := do
  let (octets, rest) ← tagPart true (gs.drop 1)
  if nextChar rest == '>' then some (.tag "" octets, rest.drop 1) else none

/-- A tag after its exclamation mark that starts with the name of a beginning, or with an
exclamation mark alone. -/
def shortTag (gs : List Glyph) : Option (Token × List Glyph) := do
  let name := (gs.takeWhile (isNameChar ·.char)).map (·.char)
  let rest := gs.dropWhile (isNameChar ·.char)
  if nextChar rest == '!' then
    let (octets, rest) ← tagPart false (rest.drop 1)
    return (.tag (String.ofList ('!' :: name ++ ['!'])) octets, rest)
  else
    let (octets, rest) ← tagOctets false 0 rest
    let octets := (octetsOf name ++ octets).takeWhile (· != 0)
    return (if octets.isEmpty then .tag "" (octetsOf ['!']) else .tag "!" octets, rest)

def readTag (flow : Bool) (gs : List Glyph) : Option (Token × List Glyph) := do
  let (tag, rest) ← if nextChar gs == '<' then fullTag gs else shortTag gs
  if atIdle rest || (flow && nextChar rest == ',') then some (tag, rest) else none

def readNumber (gs : List Glyph) : Option (Nat × List Glyph) := do
  let digits := (gs.takeWhile (·.char.isDigit)).map (·.char)
  let n ← Text.readNat 10 digits
  if digits.length ≤ 9 then some (n, gs.dropWhile (·.char.isDigit)) else none

def readVersion (gs : List Glyph) : Option (Token × List Glyph) := do
  let (major, rest) ← readNumber gs
  let (minor, rest) ← if nextChar rest == '.' then readNumber (rest.drop 1) else none
  return (.version major minor, rest)

/-- The name for a beginning of tags: a single exclamation mark, or a name between two of them. -/
def readHandle (gs : List Glyph) : Option (String × List Glyph) := do
  let after ← if nextChar gs == '!' then some (gs.drop 1) else none
  let name := (after.takeWhile (isNameChar ·.char)).map (·.char)
  let rest := after.dropWhile (isNameChar ·.char)
  if nextChar rest == '!' then return (String.ofList ('!' :: name ++ ['!']), rest.drop 1)
  else if name.isEmpty then return ("!", rest)
  else none

def readStem (gs : List Glyph) : Option (Token × List Glyph) := do
  let (name, rest) ← readHandle gs
  if !isBlank (nextChar rest) then none
  let (stem, rest) ← tagPart true (rest.dropWhile (isBlank ·.char))
  if atIdle rest then some (.handle name stem, rest) else none

/-- A line that starts with a percent sign, after that sign; with the lines after it. -/
def readDirective (gs : List Glyph) : Option (Token × List Glyph) := do
  let name := (gs.takeWhile (isNameChar ·.char)).map (·.char)
  let rest := gs.dropWhile (isNameChar ·.char)
  if !atIdle rest then none
  let rest := rest.dropWhile (isBlank ·.char)
  let (token, rest) ←
    if String.ofList name == "YAML" then readVersion rest
    else if String.ofList name == "TAG" then readStem rest
    else none
  return (token, ← afterLine rest)

end SpectrumAsm.Document
