import GraphQLText.Token.QuotedString
import GraphQLText.Token.BlockString

/-!
# Tokens

The words of the language. A string token carries the value that it stands for, a number the text
that it was written with. Keywords are names like all others.
-/

namespace GraphQLText

set_option autoImplicit false

inductive Punctuator
  | openBracket
  | closeBracket
  | openBrace
  | closeBrace
  | openParen
  | closeParen
  | colon
  | equals
  | bang
  | ampersand
  | pipe
  | dollar
  | atSign
  | ellipsis
deriving DecidableEq, Repr, Inhabited

namespace Punctuator

def text : Punctuator → List Char
  | openBracket => ['[']
  | closeBracket => [']']
  | openBrace => ['\x7b']
  | closeBrace => ['\x7d']
  | openParen => ['(']
  | closeParen => [')']
  | colon => [':']
  | equals => ['=']
  | bang => ['!']
  | ampersand => ['&']
  | pipe => ['|']
  | dollar => ['$']
  | atSign => ['@']
  | ellipsis => ['.', '.', '.']

def ofChar? : Char → Option Punctuator
  | '[' => some openBracket
  | ']' => some closeBracket
  | '\x7b' => some openBrace
  | '\x7d' => some closeBrace
  | '(' => some openParen
  | ')' => some closeParen
  | ':' => some colon
  | '=' => some equals
  | '!' => some bang
  | '&' => some ampersand
  | '|' => some pipe
  | '$' => some dollar
  | '@' => some atSign
  | _ => none

theorem text_of_ofChar? {c : Char} {p : Punctuator} (h : ofChar? c = some p) : p.text = [c] := by
  unfold ofChar? at h
  split at h <;> simp_all <;> subst h <;> rfl

end Punctuator

def isNameStart (c : Char) : Bool :=
  c == '_' || c.isAlpha

def isNameChar (c : Char) : Bool :=
  c == '_' || c.isAlphanum

inductive Token
  | punctuator (p : Punctuator)
  | name (text : String)
  | int (text : String)
  | float (text : String)
  | string (value : String)
  | blockString (value : String)
deriving DecidableEq, Repr, Inhabited

namespace Token

def isString : Token → Bool
  | string _ | blockString _ => true
  | _ => false

/-- How the token is written on one line. A block string is given as a quoted string, for its lines
depend on the depth that it is written at. -/
def text : Token → List Char
  | punctuator p => p.text
  | name s | int s | float s => s.toList
  | string v | blockString v => QuotedString.write v.toList

end Token

end GraphQLText
