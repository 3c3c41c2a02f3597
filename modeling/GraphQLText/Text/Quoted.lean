import GraphQLText.Text.Graphic

/-!
# Quoted text

How a message shows a piece of source: between quotation marks, with a backslash before each mark
and each backslash in it, and with every character that could not be seen spelled out.
-/

namespace GraphQLText.Text

set_option autoImplicit false

/-- A character spelled out by its code point in lower-case hexadecimal digits. -/
def codePointEscape (c : Char) : List Char :=
  "\\u\x7b".toList ++ Nat.toDigits 16 c.toNat ++ "\x7d".toList

def quotedChar (c : Char) : List Char :=
  match c with
  | '"' => ['\\', '"']
  | '\\' => ['\\', '\\']
  | '\x00' => ['\\', '0']
  | '\t' => ['\\', 't']
  | '\n' => ['\\', 'n']
  | '\r' => ['\\', 'r']
  | _ => if isGraphic c then [c] else codePointEscape c

def quoted (text : String) : String :=
  String.ofList ('"' :: text.toList.flatMap quotedChar ++ ['"'])

end GraphQLText.Text
