import GraphQLText.Document.Reader
import GraphQLText.Reader.Lookahead

/-!
# Programs

What a reader does, written down step by step. A program asks a lookahead, goes on with the answer,
repeats items for as long as there are more, and calls itself where values, types and selections
nest. Nothing bounds how often it repeats and how deep it calls.
-/

namespace GraphQLText

set_option autoImplicit false

/-- One step of a program, which is a single question to the lookahead. -/
inductive Op : Type → Type 1
  | peek : Op (Option Token)
  | at? (s : Symbol) : Op Bool
  | eat (t : Token) : Op Bool
  | take {α : Type} (expected : Construct) (accept : Token → Option α) : Op α
  | start : Op Nat
  | spanFrom (position : Nat) : Op Span

namespace Op

def run {α : Type} : Op α → Lookahead → Except Construct α × Lookahead
  | peek, b => b.peek.map (.ok ·.token?) id
  | at? s, b => (b.at? s).map .ok id
  | eat t, b => (b.eat (.token t)).map .ok id
  | take expected accept, b =>
    let (s, b) := b.next
    match s.token?.bind accept with
    | some a => (.ok a, b)
    | none => (.error expected, b)
  | start, b => b.start.map .ok id
  | spanFrom position, b => (.ok (b.spanFrom position), b)

def read {α : Type} : Op α → Reader α
  | peek => Reader.peek
  | at? s => fun c => .ok (c.sight.symbol == s, c)
  | eat t => Reader.eat t
  | take expected accept => Reader.token expected accept
  | start => Reader.nextStart
  | spanFrom position => fun c => .ok (⟨position, max c.lastEnd position⟩, c)

end Op

inductive Nonterminal : Type → Type
  | value (constant : Bool) : Nonterminal Value
  | type : Nonterminal TypeRef
  | selection : Nonterminal Selection

def Nonterminal.read {α : Type} : Nonterminal α → Reader α
  | value constant => Value.read constant
  | type => TypeRef.read
  | selection => Selection.read

/-- A program that ends with a node, or with what it expected in vain. -/
inductive Program : Type → Type 1
  | pure {α : Type} (a : α) : Program α
  | fail {α : Type} (expected : Construct) : Program α
  | ask {α : Type} (op : Op α) : Program α
  | bind {α β : Type} (p : Program α) (next : α → Program β) : Program β
  | loop {α β : Type} (more : Program Bool) (item : Program α) (finish : List α → β) : Program β
  | call {α : Type} (n : Nonterminal α) : Program α
  | relabel {α : Type} (expected : Construct) (p : Program α) : Program α

namespace Program

def read {α : Type} : Program α → Reader α
  | pure a => Pure.pure a
  | fail expected => Reader.fail expected
  | ask op => op.read
  | bind p next => p.read >>= fun a => (next a).read
  | loop more item finish => do return finish (← Reader.whileMore more.read item.read)
  | call n => n.read
  | relabel expected p => Reader.relabel expected p.read

variable (body : (α : Type) → Nonterminal α → Program α)

/-- The item is repeated somewhere in the program, or in what the program calls. -/
inductive Repeats : ∀ {α β : Type}, Program α → Program β → Prop
  | here {α β : Type} {more : Program Bool} {item : Program α} {finish : List α → β} :
      Repeats (.loop more item finish) item
  | more {α β γ : Type} {more : Program Bool} {item : Program α} {finish : List α → β}
      {p : Program γ} : Repeats more p → Repeats (.loop more item finish) p
  | item {α β γ : Type} {more : Program Bool} {item : Program α} {finish : List α → β}
      {p : Program γ} : Repeats item p → Repeats (.loop more item finish) p
  | bind_left {α β γ : Type} {p : Program α} {next : α → Program β} {q : Program γ} :
      Repeats p q → Repeats (.bind p next) q
  | bind_right {α β γ : Type} {p : Program α} {next : α → Program β} {q : Program γ} {a : α} :
      Repeats (next a) q → Repeats (.bind p next) q
  | call {α β : Type} {n : Nonterminal α} {p : Program β} :
      Repeats (body α n) p → Repeats (.call n) p
  | relabel {α β : Type} {expected : Construct} {p : Program α} {q : Program β} :
      Repeats p q → Repeats (.relabel expected p) q

end Program

end GraphQLText
