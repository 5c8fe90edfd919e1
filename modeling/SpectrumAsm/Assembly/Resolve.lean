/-
Filling in what had to wait.

The waiting patches are tried in order, constants first, and again as long as one of them could be filled in.
A patch is tried inside the scope it was made in. At the end of a scope only the patches made inside it are
tried; at the end of the program every patch that still waits is a fault.
-/
import SpectrumAsm.Assembly.Emit

namespace SpectrumAsm.Assembly

def applyPatch (a : Assembly) (p : Patch) (v : Value) : Except Fault Assembly :=
  match p.kind with
  | .equ =>
    match p.target with
    | some (slot, name) => .ok { a with symbols := a.symbols.assign slot name v }
    | none => .ok a
  | .entry => v.lowWord.map fun w => { a with entry := some w }
  | .exportEntry => v.lowWord.map fun w => { a with exportEntry := some w }
  | .byte | .fieldByte => v.lowWord.map fun w => a.patchBytes p.segment p.offset [w.toUInt8]
  | .word | .fieldWord => v.lowWord.map fun w => a.patchBytes p.segment p.offset (littleEndian w)
  | .branch => do
    let w ← v.lowWord
    match a.segments[p.segment]? with
    | none => return a
    | some s =>
      let distance ← branchByte w (s.wordAt p.offset)
      return a.patchBytes p.segment (p.offset + 1) [distance]

/-- An attempt at a patch. It is settled when its expression is known or at fault. -/
def tryPatch (a : Assembly) (p : Patch) : Bool × Assembly :=
  match a.evalAt p.place p.expr with
  | (.ok (.pending _), a) => (false, a)
  | (.ok (.ready v), a) =>
    match a.applyPatch p v with
    | .ok a => (true, a)
    | .error fault => (true, a.reportAt fault p.pos)
  | (.error fault, a) => (true, a.reportAt fault p.pos)

/-- Whether a patch was made inside a scope; without a scope all patches are meant. -/
def isInside (a : Assembly) (scope : Option Nat) (p : Patch) : Bool :=
  match scope with
  | some id => a.symbols.encloses p.scope id
  | none => true

/-- One patch of a sweep: tried if it is meant, kept if it is not settled. -/
def sweepStep (scope : Option Nat) (equs : Bool) (s : Array Patch × Assembly) (p : Patch) :
    Array Patch × Assembly :=
  let (kept, a) := s
  if (p.kind == .equ) == equs && a.isInside scope p then
    match a.tryPatch p with
    | (true, a) => (kept, a)
    | (false, a) => (kept.push p, a)
  else (kept.push p, a)

def sweep (a : Assembly) (scope : Option Nat) (equs : Bool) : Assembly :=
  let queue := a.pending
  let (pending, a) := queue.foldl (sweepStep scope equs) (#[], { a with pending := #[] })
  { a with pending }

def sweeps (scope : Option Nat) : Nat → Assembly → Assembly
  | 0, a => a
  | n + 1, a =>
    let before := a.pending.size
    let a := (a.sweep scope true).sweep scope false
    if a.pending.size < before then sweeps scope n a else a

def resolveScope (a : Assembly) (id : Nat) : Assembly :=
  sweeps (some id) a.pending.size a

def reportWaiting (a : Assembly) (p : Patch) : Assembly :=
  match a.evalAt p.place p.expr with
  | (.ok (.pending names), a) => a.reportAt (.waiting names) p.pos
  | (.ok (.ready _), a) => a.reportAt (.notEvaluable p.expr.shown) p.pos
  | (.error fault, a) => a.reportAt fault p.pos

def resolveAll (a : Assembly) : Assembly :=
  let a := sweeps none a.pending.size a
  let queue := a.pending
  queue.foldl reportWaiting { a with pending := #[] }

end SpectrumAsm.Assembly
