import GraphQLText.Text.Span

/-!
# Locations

The line and the column of a position, both counted from one. Lines end at line feeds and columns
count characters, so a location can be read off a text on a screen.
-/

namespace GraphQLText

set_option autoImplicit false

structure Location where
  offset : Nat
  line : Nat
  column : Nat
deriving DecidableEq, Repr, Inhabited

namespace Location

def ofOffset (source : List Char) (offset : Nat) : Location :=
  let before := Text.takeBytes offset source
  { offset
    line := before.count '\n' + 1
    column := (before.reverse.takeWhile (· != '\n')).length + 1 }

/-- A location is written as its line and its column with a colon between them. -/
def text (location : Location) : String :=
  toString location.line ++ ":" ++ toString location.column

end Location

end GraphQLText
