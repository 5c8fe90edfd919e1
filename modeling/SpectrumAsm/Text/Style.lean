/-
Colours and styles on a terminal, switched on before a text and off after it.
-/
namespace SpectrumAsm.Text

inductive Style where
  | red | cyan | blue | bold | dim | underline
  deriving DecidableEq, Repr

def control (code : String) : String := "\x1b[" ++ code ++ "m"

def Style.on : Style → String
  | red => control "31"
  | cyan => control "36"
  | blue => control "34"
  | bold => control "1"
  | dim => control "2"
  | underline => control "4"

def Style.off : Style → String
  | red | cyan | blue => control "39"
  | bold | dim => control "22"
  | underline => control "24"

def styled (styles : List Style) (text : String) : String :=
  String.join (styles.map Style.on) ++ text ++ String.join (styles.map Style.off)

def padRight (width : Nat) (text : String) : String :=
  text ++ String.ofList (List.replicate (width - text.length) ' ')

def padLeft (width : Nat) (text : String) : String :=
  String.ofList (List.replicate (width - text.length) ' ') ++ text

end SpectrumAsm.Text
