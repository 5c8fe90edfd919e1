/-
Tokens of a source line. A token remembers the byte column it starts at; a piece of text that forms
no token of the language is kept as a `bad` token, so that a line always has a token list.
-/
import SpectrumAsm.Text

namespace SpectrumAsm

inductive Punct where
  | eqEq | notEq | ge | le | shl | shr | arrow | colonColon | colonEq
  | eq | plus | minus | star | slash | percent | amp | pipe | caret | bang | tilde | question
  | colon | comma | period | dollar | lparen | rparen | lbracket | rbracket | lt | gt
  deriving DecidableEq, Repr

namespace Punct

def text : Punct → String
  | eqEq => "==" | notEq => "!=" | ge => ">=" | le => "<=" | shl => "<<" | shr => ">>"
  | arrow => "->" | colonColon => "::" | colonEq => ":="
  | eq => "=" | plus => "+" | minus => "-" | star => "*" | slash => "/" | percent => "%"
  | amp => "&" | pipe => "|" | caret => "^" | bang => "!" | tilde => "~" | question => "?"
  | colon => ":" | comma => "," | period => "." | dollar => "$"
  | lparen => "(" | rparen => ")" | lbracket => "[" | rbracket => "]" | lt => "<" | gt => ">"

def ofPair? : Char → Char → Option Punct
  | '=', '=' => some eqEq
  | '!', '=' => some notEq
  | '<', '=' => some le
  | '>', '=' => some ge
  | '<', '<' => some shl
  | '>', '>' => some shr
  | '-', '>' => some arrow
  | ':', ':' => some colonColon
  | ':', '=' => some colonEq
  | _, _ => none

/-- The token of a single character. The dollar sign is not among them: what it means depends on
what follows. -/
def ofChar? : Char → Option Punct
  | '=' => some eq
  | '+' => some plus
  | '-' => some minus
  | '*' => some star
  | '/' => some slash
  | '%' => some percent
  | '&' => some amp
  | '|' => some pipe
  | '^' => some caret
  | '!' => some bang
  | '~' => some tilde
  | '?' => some question
  | ':' => some colon
  | ',' => some comma
  | '.' => some period
  | '(' => some lparen
  | ')' => some rparen
  | '[' => some lbracket
  | ']' => some rbracket
  | '<' => some lt
  | '>' => some gt
  | _ => none

end Punct

/-- What a token is. Literals keep their text next to their value; quoted text keeps its escapes. -/
inductive TokenKind where
  | punct (p : Punct)
  | ident (name : String)
  | directive (name : String)
  | param (name : String)
  | counter
  | number (lexeme : String) (value : Int64)
  | real (lexeme : String) (value : Float)
  | text (raw : String)
  | char (raw : String)
  | comment (text : String)
  | bad (text : String)
  deriving DecidableEq, Repr

structure Token where
  col : Nat
  kind : TokenKind
  deriving DecidableEq, Repr

namespace TokenKind

/-- Tokens that end an operand. A percent sign after one of them divides, elsewhere it introduces a
binary number. -/
def endsOperand : TokenKind → Bool
  | ident _ | number _ _ | real _ _ | text _ | char _ | param _ | counter => true
  | punct .dollar | punct .period | punct .rparen | punct .rbracket => true
  | _ => false

def shown : TokenKind → String
  | punct p => p.text
  | ident s | number s _ | real s _ | comment s | bad s => s
  | text s => "\x22" ++ s ++ "\x22"
  | char s => "\x27" ++ s ++ "\x27"
  | directive s => "#" ++ s
  | param s => "\x7b\x7b" ++ s ++ "\x7d\x7d"
  | counter => "$cnt"

def isComment : TokenKind → Bool
  | comment _ => true
  | _ => false

end TokenKind

end SpectrumAsm
