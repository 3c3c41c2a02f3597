/-!
# Lexical faults

The reasons for which a stretch of source text forms no token.
-/

namespace GraphQLText

set_option autoImplicit false

inductive Fault
  | unterminatedBlockString
  | unterminatedString
  | invalidEscape
  | invalidCharacter
  | invalidNumber
  | unexpectedCharacter
deriving DecidableEq, Repr, Inhabited

namespace Fault

/-- What is wrong, without the text that it concerns. -/
def message : Fault → String
  | unterminatedBlockString => "Unterminated block string"
  | unterminatedString => "Unterminated string"
  | invalidEscape => "Invalid escape sequence in string"
  | invalidCharacter => "Invalid character in string"
  | invalidNumber => "Invalid number"
  | unexpectedCharacter => "Unexpected character"

/-- Whether a report of the fault quotes the text. The text of a broken string is left out, since
it may run on to the end of the source. -/
def quotesText : Fault → Bool
  | invalidNumber | unexpectedCharacter => true
  | _ => false

end Fault

end GraphQLText
