import GraphQLText.Text.Lines
import GraphQLText.Text.Location

/-!
# Source snippets

A snippet shows where a span lies: the lines of the source from the one before the span through the
span's last one, each behind its number, and below them a row of carets that marks the span. A
span that runs over a line end is shown without carets.
-/

namespace GraphQLText.Snippet

set_option autoImplicit false

/-- The line without the carriage returns at its end. -/
def trimReturns (line : List Char) : List Char :=
  (line.reverse.dropWhile (· == '\r')).reverse

/-- A line number set to the right in a column of the given width. -/
def gutter (width number : Nat) : List Char :=
  let digits := (toString number).toList
  List.replicate (width - digits.length + 1) ' ' ++ digits ++ " | ".toList

def numbered (width : Nat) : Nat → List (List Char) → List (List Char)
  | _, [] => []
  | number, line :: rest =>
    (gutter width number ++ trimReturns line) :: numbered width (number + 1) rest

/-- The row below the last line: blanks up to the column, then the carets. -/
def marker (width column count : Nat) : List Char :=
  List.replicate (width + 1) ' ' ++ " | ".toList ++ List.replicate (column - 1) ' ' ++
    List.replicate count '^'

def rows (source : List Char) (span : Span) : List (List Char) :=
  let first := Location.ofOffset source span.start
  let last := Location.ofOffset source span.stop
  let top := max 1 (first.line - 1)
  let width := (toString last.line).length
  let shown := ((Text.lines source).drop (top - 1)).take (last.line + 1 - top)
  let marked :=
    if first.line = last.line then
      [marker width first.column (max 1 (last.column - first.column))]
    else
      []
  numbered width top shown ++ marked

/-- The snippet that shows `span`, with a line feed between its rows. -/
def render (source : List Char) (span : Span) : String :=
  String.ofList (Text.unlines (rows source span))

end GraphQLText.Snippet
