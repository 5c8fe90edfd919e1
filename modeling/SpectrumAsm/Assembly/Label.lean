/-
Labels of lines.

A label on a line of its own waits for the next line that has an address or takes a name. A label
before the closing line of a block stands for the address where the block ends.
-/
import SpectrumAsm.Assembly

namespace SpectrumAsm

namespace Assembly

def bindLabel (a : Assembly) (name : String) (address : UInt16) : Assembly :=
  match a.define name .label (some (.int (Int64.ofNat address.toNat))) with
  | (.ok _, a) => a
  | (.error fault, a) => a.report fault

def flushLabel (a : Assembly) : Assembly :=
  match a.hanging with
  | none => a
  | some (name, labelPos) =>
    let pos := a.pos
    let address := a.address
    let a := { a with hanging := none, pos := labelPos }
    { a.bindLabel name address with pos }

/-- The name a line gives to what it defines: its own label, or else the waiting one. -/
def takeLabel (a : Assembly) (line : SourceLine) : Option String × Assembly :=
  match line.label with
  | some label => (some label, a)
  | none => (a.hanging.map (·.1), { a with hanging := none })

/-- The waiting label and the label of a line, both defined here. -/
def bindLineLabel (a : Assembly) (line : SourceLine) : Assembly :=
  let a := a.flushLabel
  match line.label with
  | some label => a.bindLabel label a.address
  | none => a

def bindEndLabel (a : Assembly) (label : Option String) (pos : Position) : Assembly :=
  let a := a.flushLabel
  match label with
  | some label =>
    let a := { a with pos }
    a.bindLabel label a.address
  | none => a

end Assembly

end SpectrumAsm
