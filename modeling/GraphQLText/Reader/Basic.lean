import GraphQLText.Construct
import GraphQLText.Token.Stream

/-!
# Readers

A reader takes a node from the front of a token stream. It looks at most one token ahead, never
goes back, and fails at the first token that cannot be where it is. A failure keeps what was
expected and the stream from the offending token on.
-/

namespace GraphQLText

set_option autoImplicit false

structure Cursor where
  tokens : List PlacedToken
  ending : Ending
  /-- The end of the last token that was read. -/
  lastEnd : Nat
deriving DecidableEq, Repr, Inhabited

namespace Cursor

def atStart (stream : TokenStream) : Cursor :=
  ⟨stream.tokens, stream.ending, 0⟩

def next? (c : Cursor) : Option Token :=
  c.tokens.head?.map PlacedToken.token

def advance (c : Cursor) : Cursor :=
  match c.tokens with
  | [] => c
  | t :: rest => { c with tokens := rest, lastEnd := t.span.stop }

/-- The span of the token ahead, or of what stands in its place. -/
def nextSpan (c : Cursor) : Span :=
  match c.tokens with
  | [] => c.ending.span
  | t :: _ => t.span

def isComplete (c : Cursor) : Bool :=
  match c.tokens, c.ending with
  | [], .complete _ => true
  | _, _ => false

end Cursor

/-- What a reader expected, and the place where it found something else. -/
structure Failure where
  expected : Construct
  place : Cursor
deriving DecidableEq, Repr, Inhabited

abbrev Reader := StateT Cursor (Except Failure)

namespace Reader

variable {α : Type}

def fail (expected : Construct) : Reader α := fun c =>
  .error ⟨expected, c⟩

def peek : Reader (Option Token) := fun c =>
  .ok (c.next?, c)

def skip : Reader Unit := fun c =>
  .ok ((), c.advance)

def nextStart : Reader Nat := fun c =>
  .ok (c.nextSpan.start, c)

/-- Reads the next token if it stands for a value of the given kind. -/
def token (expected : Construct) (accept : Token → Option α) : Reader α := fun c =>
  match c.next?.bind accept with
  | some a => .ok (a, c.advance)
  | none => .error ⟨expected, c⟩

def at? (t : Token) : Reader Bool := fun c =>
  .ok (c.next? == some t, c)

/-- Reads the given token if it is ahead, and tells whether it was. -/
def eat (t : Token) : Reader Bool := fun c =>
  if c.next? = some t then .ok (true, c.advance) else .ok (false, c)

def expect (t : Token) (expected : Construct) : Reader Unit :=
  token expected fun found => if found = t then some () else none

def nameToken (expected : Construct) : Reader String :=
  token expected fun
    | .name s => some s
    | _ => none

/-- Reads a node together with its span, which runs from the token ahead to the last token of the
node. -/
def located (read : Reader (Span → α)) : Reader α := fun c => do
  let start := c.nextSpan.start
  let (node, c') ← read c
  .ok (node ⟨start, max c'.lastEnd start⟩, c')

/-- Fails with the given construct instead of the one that the reader expected. -/
def relabel (expected : Construct) (read : Reader α) : Reader α := fun c =>
  match read c with
  | .ok r => .ok r
  | .error failure => .error { failure with expected }

/-- Reads items for as long as `more` says that there is one. Items take at least one token; a
reader of items that did not would end the list. -/
def whileMore (more : Reader Bool) (item : Reader α) : Reader (List α) := fun c =>
  match more c with
  | .error failure => .error failure
  | .ok (false, c') => .ok ([], c')
  | .ok (true, c') =>
    match item c' with
    | .error failure => .error failure
    | .ok (a, c'') =>
      if c''.tokens.length < c.tokens.length then
        match whileMore more item c'' with
        | .error failure => .error failure
        | .ok (as, last) => .ok (a :: as, last)
      else
        .ok ([a], c'')
termination_by c => c.tokens.length

def untilClosed (close : Punctuator) (item : Reader α) : Reader (List α) :=
  whileMore (not <$> eat (.punctuator close)) item

/-- Reads the items between two tokens. The list may be missing, but must not be empty. -/
def enclosed (opening close : Punctuator) (item : Reader α) : Reader (List α) := do
  if ← eat (.punctuator opening) then
    let first ← item
    let rest ← untilClosed close item
    return first :: rest
  else
    return []

/-- Reads one or more items with a token between each and the next. The token may also precede the
first item. -/
def separated (separator : Punctuator) (item : Reader α) : Reader (List α) := do
  let _ ← eat (.punctuator separator)
  let first ← item
  let rest ← whileMore (eat (.punctuator separator)) item
  return first :: rest

def behind? (t : Token) (read : Reader α) : Reader (Option α) := do
  if ← eat t then
    some <$> read
  else
    return none

/-- Reads with a bound on the depth of nesting. Each level of nesting takes a token, so the number
of tokens ahead is enough. -/
def nested (read : Nat → Reader α) : Reader α := fun c =>
  read (c.tokens.length + 1) c

end Reader

end GraphQLText
