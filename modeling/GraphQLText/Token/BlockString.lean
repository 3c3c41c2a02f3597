import GraphQLText.Text.Lines
import GraphQLText.Token.Fault

/-!
# Block strings

The text between two triple quotation marks, over any number of lines. Its value leaves out the
indentation that its lines share and the blank lines at both ends, so that a block string can be
moved to another depth without a change of meaning. `keeps` tells which values a block string can
hold as they are.
-/

namespace GraphQLText.BlockString

set_option autoImplicit false

open Text (lines unlines)

/-- The control characters that no string may hold. -/
def isForbidden (c : Char) : Bool :=
  c < ' ' && c != '\t' && c != '\n' && c != '\r'

/-- Reads the raw text behind an opening triple mark up to the closing one, and the text behind it.
A backslash before a triple mark keeps that mark from closing the string. -/
def read : List Char → Except Fault (List Char × List Char)
  | [] => .error .unterminatedBlockString
  | '\\' :: '"' :: '"' :: '"' :: rest =>
    (read rest).map fun (raw, after) => ('"' :: '"' :: '"' :: raw, after)
  | '"' :: '"' :: '"' :: rest => .ok ([], rest)
  | c :: rest =>
    if isForbidden c then .error .invalidCharacter
    else (read rest).map fun (raw, after) => (c :: raw, after)

def normalizeLineEnds : List Char → List Char
  | [] => []
  | '\r' :: '\n' :: rest => '\n' :: normalizeLineEnds rest
  | '\r' :: rest => '\n' :: normalizeLineEnds rest
  | c :: rest => c :: normalizeLineEnds rest

def isIndent (c : Char) : Bool :=
  c == ' ' || c == '\t'

def isBlank (line : List Char) : Bool :=
  line.all isIndent

def indentWidth (line : List Char) : Nat :=
  (line.takeWhile isIndent).length

/-- The indentation that all lines share, blank ones aside. -/
def commonIndent (ls : List (List Char)) : Nat :=
  (((ls.filter fun line => !isBlank line).map indentWidth).min?).getD 0

/-- The lines without their common indentation. The first line follows the opening mark, so it has
no part in the indentation and keeps its own. -/
def dedent : List (List Char) → List (List Char)
  | [] => []
  | first :: rest => first :: rest.map (List.drop (commonIndent rest))

def trimBlank (ls : List (List Char)) : List (List Char) :=
  ((ls.dropWhile isBlank).reverse.dropWhile isBlank).reverse

def value (raw : List Char) : List Char :=
  unlines (trimBlank (dedent (lines (normalizeLineEnds raw))))

def isFlush : List Char → Bool
  | [] => false
  | c :: _ => !isIndent c

/-- Whether a block string can hold the text as its value: it has no forbidden character or carriage
return, a line of it is flush, and neither its first nor its last line is blank. -/
def keeps (text : List Char) : Bool :=
  let ls := lines text
  !text.isEmpty &&
    ls.all (fun line => line.all fun c => ' ' ≤ c || c == '\t') &&
    ls.any isFlush &&
    !isBlank (ls.head?.getD []) &&
    !isBlank (ls.getLast?.getD [])

def escapeMarks : List Char → List Char
  | [] => []
  | '"' :: '"' :: '"' :: rest => '\\' :: '"' :: '"' :: '"' :: escapeMarks rest
  | c :: rest => c :: escapeMarks rest

/-- The blanks before a line at the given depth, two for each level. -/
def indentation (level : Nat) : List Char :=
  List.replicate (2 * level) ' '

/-- One line of a written block string. An empty line is not indented. -/
def writeLine (level : Nat) (line : List Char) : List Char :=
  (if line.isEmpty then [] else indentation level ++ escapeMarks line) ++ ['\n']

def write (level : Nat) (text : List Char) : List Char :=
  ['"', '"', '"', '\n'] ++ (lines text).flatMap (writeLine level) ++ indentation level ++
    ['"', '"', '"']

theorem read_suffix {cs raw rest : List Char} (h : read cs = .ok (raw, rest)) : rest <:+ cs := by
  fun_induction read cs generalizing raw with
  | case1 => simp at h
  | case2 tail ih =>
    cases ht : read tail with
    | error f => simp [ht, Except.map] at h
    | ok p =>
      simp only [ht, Except.map, Except.ok.injEq, Prod.mk.injEq] at h
      have hp : read tail = .ok (p.1, rest) := by rw [ht, ← h.2]
      exact (ih hp).trans ⟨['\\', '"', '"', '"'], rfl⟩
  | case3 tail =>
    simp only [Except.ok.injEq, Prod.mk.injEq] at h
    exact h.2 ▸ ⟨['"', '"', '"'], rfl⟩
  | case4 => simp at h
  | case5 c tail _ _ _ ih =>
    cases ht : read tail with
    | error f => simp [ht, Except.map] at h
    | ok p =>
      simp only [ht, Except.map, Except.ok.injEq, Prod.mk.injEq] at h
      have hp : read tail = .ok (p.1, rest) := by rw [ht, ← h.2]
      exact (ih hp).trans (List.suffix_cons c tail)

end GraphQLText.BlockString
