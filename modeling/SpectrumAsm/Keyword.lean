/-
Words with a fixed meaning at the start of a statement.
-/
import SpectrumAsm.Cpu.Mnemonic

namespace SpectrumAsm

open SpectrumAsm.Cpu

inductive Keyword where
  | org | ent | xent | disp | equ | var | skip | defb | defw | defm | defn | defc | defh | defs
  | fillb | fillw | model | align | trace | tracehex | rndseed | defg | defgx | error | includebin
  | ifTrue | ifUsed | ifUnused | elseIf | otherwise | endIf | loop | endLoop | whileTrue | endWhile
  | repeatBody | untilTrue | forEach | upTo | stepBy | endFor | breakLoop | continueLoop
  | macroDef | endMacro | proc | endProc | locals | moduleDef | endModule | structDef | endStruct
  deriving DecidableEq, Repr

namespace Keyword

def spellings : List (String × Keyword) := [
  ("org", org), ("ent", ent), ("xent", xent), ("disp", disp), ("equ", equ), ("var", var),
  ("skip", skip), ("defb", defb), ("db", defb), ("defw", defw), ("dw", defw), ("defm", defm),
  ("dm", defm), ("defn", defn), ("dn", defn), ("defc", defc), ("dc", defc), ("defh", defh),
  ("dh", defh), ("defs", defs), ("ds", defs), ("fillb", fillb), ("fillw", fillw),
  ("model", model), ("align", align), ("trace", trace), ("tracehex", tracehex),
  ("rndseed", rndseed), ("defg", defg), ("dg", defg), ("defgx", defgx), ("dgx", defgx),
  ("error", error), ("includebin", includebin), ("include_bin", includebin),
  ("if", ifTrue), ("ifused", ifUsed), ("ifnused", ifUnused), ("elif", elseIf),
  ("else", otherwise), ("endif", endIf), ("loop", loop), ("endl", endLoop), ("lend", endLoop),
  ("while", whileTrue), ("endw", endWhile), ("wend", endWhile), ("repeat", repeatBody),
  ("until", untilTrue), ("for", forEach), ("to", upTo), ("step", stepBy), ("next", endFor),
  ("break", breakLoop), ("continue", continueLoop), ("macro", macroDef), ("endm", endMacro),
  ("mend", endMacro), ("proc", proc), ("endp", endProc), ("pend", endProc), ("local", locals),
  ("module", moduleDef), ("scope", moduleDef), ("endmodule", endModule), ("endmod", endModule),
  ("moduleend", endModule), ("endscope", endModule), ("scopeend", endModule),
  ("struct", structDef), ("ends", endStruct)]

def parse? (word : String) : Option Keyword := spellings.lookup (Text.downcase word)

end Keyword

inductive Word where
  | keyword (k : Keyword)
  | mnemonic (m : Mnemonic)
  deriving DecidableEq, Repr

/-- Keywords come before mnemonics; other words have no fixed meaning. -/
def Word.parse? (word : String) : Option Word :=
  match Keyword.parse? word with
  | some k => some (.keyword k)
  | none =>
    match Mnemonic.parse word with
    | .ok m => some (.mnemonic m)
    | .error _ => none

end SpectrumAsm
