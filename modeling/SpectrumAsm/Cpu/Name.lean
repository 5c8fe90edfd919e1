/-
Names the processor's vocabulary is written in, and what is said when a word is none of them.
-/
import SpectrumAsm.Text

namespace SpectrumAsm.Cpu

inductive Vocabulary where
  | reg8 | halfIndex | pair | index | special | condition | model | mnemonic
  deriving DecidableEq, Repr

structure UnknownName where
  vocabulary : Vocabulary
  word : String
  deriving DecidableEq, Repr

def Vocabulary.title : Vocabulary → String
  | .reg8 => "Unknown 8-bit register"
  | .halfIndex => "Unknown index half register"
  | .pair => "Unknown 16-bit register"
  | .index => "Unknown index register"
  | .special => "Unknown special register"
  | .condition => "Unknown condition"
  | .model => "Unknown model"
  | .mnemonic => "Undefined Op"

def UnknownName.message (u : UnknownName) : String :=
  u.vocabulary.title ++ ": " ++ u.word

def lookupName {α : Type} (vocabulary : Vocabulary) (table : List (String × α))
    (key word : String) : Except UnknownName α :=
  match table.lookup key with
  | some a => .ok a
  | none => .error ⟨vocabulary, word⟩

end SpectrumAsm.Cpu
