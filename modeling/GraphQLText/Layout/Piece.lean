import GraphQLText.Token.Basic

/-!
# Layout

A node is written as a row of pieces: tokens with gaps between them. The gaps decide how the text
looks and the tokens what it means, so the tokens of a written node can be read off its pieces.
-/

namespace GraphQLText

set_option autoImplicit false

inductive Piece
  | word (t : Token)
  | block (value : String) (level : Nat)
  | space
  /-- A comma and a blank. -/
  | comma
  /-- A line end and the indentation of the next line. -/
  | line (level : Nat)
  /-- A line end and an empty line. -/
  | paragraph
deriving DecidableEq, Repr, Inhabited

namespace Piece

def chars : Piece → List Char
  | word t => t.text
  | block value level => BlockString.write level value.toList
  | space => [' ']
  | comma => [',', ' ']
  | line level => '\n' :: BlockString.indentation level
  | paragraph => ['\n', '\n']

def token? : Piece → Option Token
  | word t => some t
  | block value _ => some (.blockString value)
  | _ => none

abbrev mark (p : Punctuator) : Piece :=
  word (.punctuator p)

abbrev name (text : String) : Piece :=
  word (.name text)

end Piece

abbrev Layout := List Piece

namespace Layout

def render (pieces : Layout) : String :=
  String.ofList (pieces.flatMap Piece.chars)

def tokens (pieces : Layout) : List Token :=
  pieces.filterMap Piece.token?

def separated (gap : Layout) (parts : List Layout) : Layout :=
  List.intercalate gap parts

/-- Layouts on one line, between two marks and with commas between them. -/
def enclosed (opening close : Punctuator) (parts : List Layout) : Layout :=
  .mark opening :: separated [.comma] parts ++ [.mark close]

/-- Layouts on lines of their own, between two marks. The closing mark stands at the given depth and
the lines one level deeper. -/
def stacked (opening close : Punctuator) (level : Nat) (parts : List Layout) : Layout :=
  .mark opening :: parts.flatMap (fun part => .line (level + 1) :: part) ++
    [.line level, .mark close]

/-- Layouts in braces on lines of their own, or nothing if there are none. -/
def braced (level : Nat) (parts : List Layout) : Layout :=
  if parts.isEmpty then [] else stacked .openBrace .closeBrace level parts

/-- The same, set off by a blank from what is before it. -/
def body (level : Nat) (parts : List Layout) : Layout :=
  if parts.isEmpty then [] else .space :: braced level parts

end Layout

end GraphQLText
