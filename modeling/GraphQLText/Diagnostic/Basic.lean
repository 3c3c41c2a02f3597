import GraphQLText.Text.Location

/-!
# Diagnostics

A diagnostic tells what is wrong with a source text. It may name the piece of the text that is at
fault, its location, and a context, which is text that shows the place.
-/

namespace GraphQLText

set_option autoImplicit false

/-- Whether the text forms no tokens, or tokens in an order that the grammar does not allow. -/
inductive FaultKind
  | lexical
  | grammatical
deriving DecidableEq, Repr, Inhabited

structure Diagnostic where
  kind : FaultKind
  message : String
  lexeme : Option String
  location : Option Location
  context : Option String
deriving DecidableEq, Repr, Inhabited

namespace Diagnostic

/-- A diagnostic that only has a message. A fault of unknown kind counts as grammatical. -/
def ofMessage (message : String) (kind : Option FaultKind) : Diagnostic :=
  { kind := kind.getD .grammatical, message, lexeme := none, location := none, context := none }

def withContext (message : String) (location : Option Location) (context : String)
    (kind : Option FaultKind) : Diagnostic :=
  { ofMessage message kind with location, context := some context }

def withLexeme (d : Diagnostic) (lexeme : String) : Diagnostic :=
  { d with lexeme := some lexeme }

def heading (d : Diagnostic) : String :=
  match d.kind with
  | .lexical => "Lexical Error: "
  | .grammatical => "Syntax Error: "

/-- The diagnostic on one line, unless its message has several. -/
def short (d : Diagnostic) : String :=
  match d.location with
  | some location => d.heading ++ d.message ++ " at " ++ location.text
  | none => d.heading ++ d.message

def full (d : Diagnostic) : String :=
  match d.context with
  | some context => d.short ++ "\n" ++ context
  | none => d.short

def framed (d : Diagnostic) : String :=
  "\n" ++ d.full ++ "\n"

end Diagnostic

end GraphQLText
