/-
Documents from their tokens.

Where a value may stand and none does, it is the empty scalar. The number of an anchor is how many names have
had anchors before it; of several values with one number the one that starts last counts.
-/
import SpectrumAsm.Document.Node
import SpectrumAsm.Document.Tokens
import SpectrumAsm.NameTable

namespace SpectrumAsm.Document

/-- What is left to read, the beginnings of tags by their names, and the anchors so far: the numbers of their
names, their numbers with the last one first, and the complete values by their place in that order. -/
structure Building where
  tokens : List Token
  stems : List (String × Octets) := []
  numbers : NameTable Nat := {}
  marked : List (Nat × Nat) := []
  built : List (Nat × Node) := []

abbrev Build := StateT Building Option

namespace Build

def peek : Build Token := do (← get).tokens.head?

def skip : Build Unit := modify fun b => { b with tokens := b.tokens.tail }

def expect (t : Token) : Build Unit := do
  if (← peek) == t then skip else failure

def atOneOf (ts : List Token) : Build Bool := return ts.contains (← peek)

def coreStems : List (String × Octets) := [("!", tagBytes "!"), ("!!", tagBytes coreStem)]

def fullTag (handle : String) (rest : Octets) : Build Octets := do
  if handle.isEmpty then return rest
  match ((← get).stems ++ coreStems).lookup handle with
  | some stem => return stem ++ rest
  | none => failure

def anchor? : Build (Option String) := do
  match ← peek with
  | .anchor name => skip; return some name
  | _ => return none

def tag? : Build (Option Octets) := do
  match ← peek with
  | .tag handle rest => skip; return some (← fullTag handle rest)
  | _ => return none

def properties : Build (Option String × Option Octets) := do
  match ← anchor? with
  | some name => return (some name, ← tag?)
  | none =>
    match ← tag? with
    | some tag => return (← anchor?, some tag)
    | none => return (none, none)

def mark (anchor : Option String) : Build (Option Nat) := do
  match anchor with
  | none => return none
  | some name =>
    let b ← get
    let number := b.numbers.size
    let place := b.marked.length
    set { b with numbers := b.numbers.insert name number, marked := (number, place) :: b.marked }
    return some place

def finish (place : Option Nat) (node : Node) : Build Node := do
  match place with
  | none => return node
  | some place =>
    modify fun b => { b with built := (place, node) :: b.built }
    return node

def aliasOf (name : String) : Build Node := do
  match (← get).numbers.get? name with
  | some number => return .alias number
  | none => failure

/-- The tag of a scalar. A single exclamation mark is none. -/
def scalarTag (tag : Option Octets) : Option Octets := tag.filter (· != tagBytes "!")

mutual

/-- A value. It may start by indentation if `block`, and be a list whose dashes stand in the column
of its key if `bare`; `n` bounds the tokens. -/
def node : Nat → (block bare : Bool) → Build Node
  | 0, _, _ => failure
  | n + 1, block, bare => do
    if let .alias name ← peek then
      skip
      return (← aliasOf name)
    let (anchor, tag) ← properties
    match ← peek, block, bare with
    | .dash, _, true => do
      let place ← mark anchor
      finish place (.list (← bareItems n))
    | .scalar style text, _, _ => do
      skip
      finish (← mark anchor) (.scalar ⟨text, style, scalarTag tag⟩)
    | .openList, _, _ => do
      skip
      let place ← mark anchor
      finish place (.list (← flowItems n true))
    | .openMap, _, _ => do
      skip
      let place ← mark anchor
      finish place (.map (← flowEntries n true))
    | .listStart, true, _ => do
      skip
      let place ← mark anchor
      finish place (.list (← blockItems n))
    | .mapStart, true, _ => do
      skip
      let place ← mark anchor
      finish place (.map (← blockEntries n))
    | _, _, _ =>
      if anchor.isSome || tag.isSome then finish (← mark anchor) (.scalar ⟨"", .plain, tag⟩)
      else failure

def optional : Nat → List Token → (block bare : Bool) → Build Node
  | 0, _, _, _ => failure
  | n + 1, stops, block, bare => do
    if ← atOneOf stops then return .empty else node n block bare

def blockItems : Nat → Build (List Node)
  | 0 => failure
  | n + 1 => do
    match ← peek with
    | .dash => do
      skip
      let item ← optional n [.dash, .blockEnd] true false
      return item :: (← blockItems n)
    | .blockEnd => do skip; return []
    | _ => failure

def bareItems : Nat → Build (List Node)
  | 0 => failure
  | n + 1 => do
    match ← peek with
    | .dash => do
      skip
      let item ← optional n [.dash, .key, .value, .blockEnd] true false
      return item :: (← bareItems n)
    | _ => return []

def blockEntries : Nat → Build (List (Node × Node))
  | 0 => failure
  | n + 1 => do
    match ← peek with
    | .key => do
      skip
      let key ← optional n [.key, .value, .blockEnd] true true
      let v ← valueOf n [.key, .value, .blockEnd] true
      return (key, v) :: (← blockEntries n)
    | .blockEnd => do skip; return []
    | _ => failure

def valueOf : Nat → List Token → (block : Bool) → Build Node
  | 0, _, _ => failure
  | n + 1, stops, block => do
    if ← atOneOf [.value] then
      skip
      optional n stops block block
    else return .empty

/-- The items of a list in brackets. An item can be a map of one entry; where its key is not
written, the token after the question mark is passed over. -/
def flowItems : Nat → (first : Bool) → Build (List Node)
  | 0, _ => failure
  | n + 1, first => do
    if !first && !(← atOneOf [.closeList]) then expect .comma
    match ← peek with
    | .closeList => do skip; return []
    | .key => do
      skip
      let bareKey ← atOneOf [.value, .comma, .closeList]
      let key ← if bareKey then do skip; pure Node.empty else node n false false
      let v ← valueOf n [.comma, .closeList] false
      return .map [(key, v)] :: (← flowItems n false)
    | _ => do
      let item ← node n false false
      return item :: (← flowItems n false)

def flowEntries : Nat → (first : Bool) → Build (List (Node × Node))
  | 0, _ => failure
  | n + 1, first => do
    if !first && !(← atOneOf [.closeMap]) then expect .comma
    match ← peek with
    | .closeMap => do skip; return []
    | .key => do
      skip
      let key ← optional n [.value, .comma, .closeMap] false false
      let v ← valueOf n [.comma, .closeMap] false
      return (key, v) :: (← flowEntries n false)
    | _ => do
      let key ← node n false false
      return (key, .empty) :: (← flowEntries n false)

end

/-! ## Whole documents -/

def version? : Token → Option (Nat × Nat)
  | .version major minor => some (major, minor)
  | _ => none

def stem? : Token → Option (String × Octets)
  | .handle name stem => some (name, stem)
  | _ => none

def isDirective (t : Token) : Bool := (version? t).isSome || (stem? t).isSome

/-- The lines before a document: at most one version, which has to be known, and no two beginnings
of tags with one name. -/
def directives : Build Unit := do
  let lines := (← get).tokens.takeWhile isDirective
  let versions := lines.filterMap version?
  let stems := lines.filterMap stem?
  if versions.length ≤ 1 && versions.all [(1, 1), (1, 2)].contains &&
      decide (stems.map Prod.fst).Nodup then
    modify fun b => { b with tokens := b.tokens.dropWhile isDirective, stems := stems }
  else failure

def content (n : Nat) : Build Node := do
  let t ← peek
  if isDirective t || [.documentStart, .documentEnd, .textEnd].contains t then return .empty
  else node n true false

def root (n : Nat) : Build (Option Node) := do
  let t ← peek
  if t == .textEnd then return none
  else
    let v ←
      if isDirective t || t == .documentStart then do
        directives
        expect .documentStart
        content n
      else node n true false
    modify fun b => { b with tokens := b.tokens.dropWhile (· == .documentEnd) }
    expect .textEnd
    return some v

end Build

def ofTokens (ts : List Token) : Option Document := do
  let (root, b) ← (Build.root (4 * ts.length + 4)).run { tokens := ts }
  return ⟨root, b.marked.filterMap fun (number, place) => (b.built.lookup place).map ((number, ·))⟩

/-- A text that holds at most one document; a text that is wrong anywhere gives `none`. -/
def parse (text : String) : Option Document := do ofTokens (← tokens text)

end SpectrumAsm.Document
