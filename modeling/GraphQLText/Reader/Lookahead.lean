import GraphQLText.Reader.Parse
import GraphQLText.Token.Lexeme

/-!
# Looking ahead

A lookahead takes symbols from a source one by one and may hold back the one that it has looked at.
Behind the last token there is the end of input, as often as one asks for it. Where no token can be
read, the symbol is a broken one, and lexing goes on behind it.
-/

namespace GraphQLText

set_option autoImplicit false

inductive Symbol
  | token (t : Token)
  | broken
  | endOfInput
deriving DecidableEq, Repr, Inhabited

def Symbol.token? : Symbol → Option Token
  | token t => some t
  | _ => none

structure Sight where
  symbol : Symbol
  span : Span
deriving DecidableEq, Repr, Inhabited

/-- What follows the last token of a stream, as a lookahead sees it. -/
def Ending.sight (e : Ending) : Sight :=
  match e with
  | .complete _ => ⟨.endOfInput, e.span⟩
  | .broken .. => ⟨.broken, e.span⟩

def Cursor.sight (c : Cursor) : Sight :=
  match c.tokens with
  | t :: _ => ⟨.token t.token, t.span⟩
  | [] => c.ending.sight

structure Supply where
  source : String
  offset : Nat
  rest : List Char
deriving DecidableEq, Repr, Inhabited

namespace Supply

def ofSource (source : String) : Supply :=
  ⟨source, 0, source.toList⟩

def next? (s : Supply) : Option (Sight × Supply) :=
  let ahead := Ignored.skip false s.rest
  let start := s.offset + Text.byteLength (Text.consumed s.rest ahead)
  match ahead with
  | [] => none
  | c :: tail =>
    match Scan.token? c tail with
    | .token token rest =>
      let stop := start + Text.byteLength (Text.consumed (c :: tail) rest)
      some (⟨.token token, ⟨start, stop⟩⟩, { s with offset := stop, rest })
    | .broken _ text _ =>
      let stop := start + Text.byteLength text
      let rest := (c :: tail).drop text.length
      some (⟨.broken, ⟨start, stop⟩⟩, { s with offset := stop, rest })

/-- The next symbol, which is the end of input where there is nothing more. -/
def pull (s : Supply) : Sight × Supply :=
  match s.next? with
  | some found => found
  | none => (⟨.endOfInput, ⟨s.source.utf8ByteSize, s.source.utf8ByteSize⟩⟩, s)

end Supply

/-- A supply of symbols of which one may have been looked at before it is taken. -/
structure Lookahead where
  supply : Supply
  /-- The symbol that was looked at and not yet taken. -/
  held : Option Symbol
  /-- The span of the symbol that was pulled last. -/
  span : Span
  /-- Whether that symbol is broken. -/
  isBroken : Bool
  /-- The end of the symbol that was taken last. -/
  takenEnd : Nat
deriving DecidableEq, Repr, Inhabited

namespace Lookahead

def fresh (source : String) : Lookahead :=
  { supply := .ofSource source, held := none, span := ⟨0, 0⟩, isBroken := false, takenEnd := 0 }

def pull (b : Lookahead) : Symbol × Lookahead :=
  let (sight, supply) := b.supply.pull
  (sight.symbol, { b with supply, span := sight.span, isBroken := sight.symbol == .broken })

def peek (b : Lookahead) : Symbol × Lookahead :=
  match b.held with
  | some s => (s, b)
  | none =>
    let (s, b) := b.pull
    (s, { b with held := some s })

def next (b : Lookahead) : Symbol × Lookahead :=
  let (s, b) :=
    match b.held with
    | some s => (s, { b with held := none })
    | none => b.pull
  (s, { b with takenEnd := b.span.stop })

def at? (s : Symbol) (b : Lookahead) : Bool × Lookahead :=
  let (found, b) := b.peek
  (found == s, b)

def eat (s : Symbol) (b : Lookahead) : Bool × Lookahead :=
  let (found, b) := b.at? s
  if found then (true, b.next.2) else (false, b)

def expect (s : Symbol) (expected : Construct) (b : Lookahead) :
    Except Construct Unit × Lookahead :=
  let (found, b) := b.next
  (if found = s then .ok () else .error expected, b)

def name (expected : Construct) (b : Lookahead) : Except Construct String × Lookahead :=
  let (found, b) := b.next
  let outcome :=
    match found with
    | .token (.name s) => .ok s
    | _ => .error expected
  (outcome, b)

def start (b : Lookahead) : Nat × Lookahead :=
  let b := b.peek.2
  (b.span.start, b)

/-- The span from a position to the end of the symbol that was taken last. -/
def spanFrom (position : Nat) (b : Lookahead) : Span :=
  ⟨position, max b.takenEnd position⟩

end Lookahead

/-- The report on a place of a source where something else was expected, told from the span of what
stands there. -/
def Diagnostic.ofSpan (source : String) (expected : Construct) (isBroken : Bool) (span : Span) :
    Diagnostic :=
  let chars := source.toList
  let location := some (Location.ofOffset chars span.start)
  let context := some (Snippet.render chars span)
  if isBroken then
    let lexeme := String.ofList (BrokenToken.lexemeAt chars span)
    let fault := Fault.classify chars span
    let message :=
      if fault.quotesText then fault.message ++ " " ++ Text.quoted lexeme else fault.message
    { kind := .lexical, message, lexeme := some lexeme, location, context }
  else if span.stop ≤ span.start then
    { kind := .grammatical, message := "Expected " ++ expected.title ++ ", found end of input"
      lexeme := none, location, context }
  else
    let lexeme := String.ofList (Text.slice span chars)
    { kind := .grammatical
      message := "Expected " ++ expected.title ++ ", found " ++ Text.quoted lexeme
      lexeme := some lexeme, location, context }

/-- The report that something else was expected where the symbol stands that was pulled last. -/
def Lookahead.diagnostic (expected : Construct) (b : Lookahead) : Diagnostic :=
  Diagnostic.ofSpan b.supply.source expected b.isBroken b.span

inductive Call
  | next
  | peek
  | at? (s : Symbol)
  | eat (s : Symbol)
  | expect (s : Symbol) (expected : Construct)
  | name (expected : Construct)
  | start
  | spanFrom (position : Nat)
deriving DecidableEq, Repr

inductive Answer
  | symbol (s : Symbol)
  | truth (b : Bool)
  | done (outcome : Except Construct Unit)
  | text (outcome : Except Construct String)
  | offset (n : Nat)
  | span (span : Span)
deriving Repr

namespace Lookahead

def call (b : Lookahead) : Call → Answer × Lookahead
  | .next => b.next.map .symbol id
  | .peek => b.peek.map .symbol id
  | .at? s => (b.at? s).map .truth id
  | .eat s => (b.eat s).map .truth id
  | .expect s expected => (b.expect s expected).map .done id
  | .name expected => (b.name expected).map .text id
  | .start => b.start.map .offset id
  | .spanFrom position => (.span (b.spanFrom position), b)

def answers (b : Lookahead) : List Call → List Answer
  | [] => []
  | c :: calls => (b.call c).1 :: (b.call c).2.answers calls

def behind (b : Lookahead) : List Call → Lookahead
  | [] => b
  | c :: calls => (b.call c).2.behind calls

end Lookahead

end GraphQLText
