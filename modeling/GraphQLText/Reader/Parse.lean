import GraphQLText.Diagnostic.Basic
import GraphQLText.Reader.Basic
import GraphQLText.Text.Quoted
import GraphQLText.Text.Snippet

/-!
# Parsing

Runs a reader over a whole source text. Reading stops at the first fault, which becomes a
diagnostic that shows the offending piece of the source.
-/

namespace GraphQLText

set_option autoImplicit false

namespace Failure

def message (failure : Failure) : String :=
  match failure.place.tokens, failure.place.ending with
  | t :: _, _ =>
    "Expected " ++ failure.expected.title ++ ", found " ++ Text.quoted t.text
  | [], .complete _ =>
    "Expected " ++ failure.expected.title ++ ", found end of input"
  | [], .broken fault _ lexeme _ =>
    if fault.quotesText then fault.message ++ " " ++ Text.quoted lexeme else fault.message

/-- A failure is lexical where no token could be read. -/
def kind (failure : Failure) : FaultKind :=
  match failure.place.tokens, failure.place.ending with
  | [], .broken .. => .lexical
  | _, _ => .grammatical

/-- The offending piece of the source, unless that is its end. -/
def lexeme? (failure : Failure) : Option String :=
  match failure.place.tokens, failure.place.ending with
  | t :: _, _ => some t.text
  | [], .complete _ => none
  | [], .broken _ _ lexeme _ => some lexeme

def diagnostic (source : String) (failure : Failure) : Diagnostic :=
  let chars := source.toList
  let span := failure.place.nextSpan
  { kind := failure.kind
    message := failure.message
    lexeme := failure.lexeme?
    location := some (Location.ofOffset chars span.start)
    context := some (Snippet.render chars span) }

end Failure

namespace Reader

variable {α : Type}

def endOfInput : Reader Unit := fun c =>
  if c.isComplete then .ok ((), c) else .error ⟨.endOfInput, c⟩

/-- Reads a node behind which nothing may follow. -/
def whole (read : Reader α) : Reader α := do
  let node ← read
  endOfInput
  return node

def run (read : Reader α) (stream : TokenStream) : Except Failure α :=
  match whole read (Cursor.atStart stream) with
  | .ok (node, _) => .ok node
  | .error failure => .error failure

def parse (read : Reader α) (source : String) : Except Diagnostic α :=
  match read.run (TokenStream.ofText source) with
  | .ok node => .ok node
  | .error failure => .error (failure.diagnostic source)

end Reader

end GraphQLText
