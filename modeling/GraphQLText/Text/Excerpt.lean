import GraphQLText.Text.Snippet

/-!
# Excerpts

An excerpt is the snippet of a span, cut out of the source by positions alone: the line feeds around
the span tell where its lines begin and end. A position within a character or behind the end of the
source cuts nothing, and nothing is taken from a number that is too small for it, so that there may be
no excerpt at all.
-/

namespace GraphQLText

set_option autoImplicit false

namespace Text

/-- What stands before a position of a text and from it on. -/
def cut? : Nat → List Char → Option (List Char × List Char)
  | 0, cs => some ([], cs)
  | _ + 1, [] => none
  | n + 1, c :: cs =>
    if c.utf8Size ≤ n + 1 then
      (cut? (n + 1 - c.utf8Size) cs).map fun (xs, ys) => (c :: xs, ys)
    else
      none

theorem cut?_byteLength_append (xs ys : List Char) :
    cut? (byteLength xs) (xs ++ ys) = some (xs, ys) := by
  induction xs with
  | nil => cases ys <;> rfl
  | cons c xs ih =>
    obtain ⟨n, hn⟩ := Nat.exists_eq_add_one_of_ne_zero (Nat.ne_of_gt c.utf8Size_pos)
    have hlen : byteLength (c :: xs) = n + byteLength xs + 1 := by
      rw [byteLength_cons, hn]
      omega
    have hless : n + byteLength xs + 1 - c.utf8Size = byteLength xs := by omega
    rw [hlen, List.cons_append, cut?, if_pos (by omega), hless, ih]
    rfl

def piece? (span : Span) (cs : List Char) : Option (List Char) := do
  let (before, _) ← cut? span.stop cs
  let (_, piece) ← cut? span.start before
  return piece

theorem piece?_append (xs ys zs : List Char) :
    piece? ⟨byteLength xs, byteLength (xs ++ ys)⟩ (xs ++ (ys ++ zs)) = some ys := by
  have hcut := cut?_byteLength_append (xs ++ ys) zs
  rw [List.append_assoc] at hcut
  simp only [piece?, hcut, cut?_byteLength_append, Option.bind_eq_bind, Option.bind_some,
    Option.pure_def]

def firstFeed? : List Char → Option Nat
  | [] => none
  | c :: cs => if c = '\n' then some 0 else (firstFeed? cs).map (c.utf8Size + ·)

def lastFeed? : List Char → Option Nat
  | [] => none
  | c :: cs =>
    match lastFeed? cs with
    | some n => some (c.utf8Size + n)
    | none => if c = '\n' then some 0 else none

def lastStart (cs : List Char) : Nat :=
  (lastFeed? cs).elim 0 (· + 1)

/-- Where the line that a position lies on ends, told from what stands behind the position. -/
def lineStop (position : Nat) (behind cs : List Char) : Nat :=
  (firstFeed? behind).elim (byteLength cs) (position + ·)

end Text

/-- The location of a position, found by the last line feed before it. -/
def Location.at? (source : List Char) (offset : Nat) : Option Location := do
  let (before, _) ← Text.cut? offset source
  let (_, line) ← Text.cut? (Text.lastStart before) before
  return ⟨offset, before.count '\n' + 1, line.length + 1⟩

namespace Excerpt

def less? (n m : Nat) : Option Nat :=
  if m ≤ n then some (n - m) else none

/-- The number of the first line shown, where the span begins on line `line`. -/
def topLine? (lineStart line : Nat) : Option Nat :=
  if lineStart = 0 then some line else less? line 1

def numbered? (width : Nat) : Nat → List (List Char) → Option (List (List Char))
  | _, [] => some []
  | number, line :: rest => do
    let digits := (toString number).toList
    let pad ← less? width digits.length
    let more ← numbered? width (number + 1) rest
    return (List.replicate (pad + 1) ' ' ++ digits ++ " | ".toList ++ Snippet.trimReturns line) :: more

def rows? (source : List Char) (span : Span) : Option (List (List Char)) := do
  let location ← Location.at? source span.start
  let (before, _) ← Text.cut? span.start source
  let lineStart := Text.lastStart before
  let (above, _) ← Text.cut? (lineStart - 1) source
  let top ← topLine? lineStart location.line
  let (_, behind) ← Text.cut? span.stop source
  let shown ← Text.piece? ⟨Text.lastStart above, Text.lineStop span.stop behind source⟩ source
  let bottom ← less? (top + (Text.lines shown).length) 1
  let width := (toString bottom).length
  let numbered ← numbered? width top (Text.lines shown)
  let marked ← Text.piece? span source
  if '\n' ∈ marked then
    return numbered
  else
    let blanks ← less? location.column 1
    return numbered ++ [List.replicate (width + 1) ' ' ++ " | ".toList ++ List.replicate blanks ' ' ++
      List.replicate (max 1 marked.length) '^']

def render? (source : List Char) (span : Span) : Option String :=
  (rows? source span).map fun rows => String.ofList (Text.unlines rows)

end Excerpt

end GraphQLText
