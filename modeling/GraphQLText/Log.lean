import GraphQLText.Text.Quoted

/-!
# Logs

What a run tells about its progress. Entries are made at all levels, and a threshold decides which
of them are shown.
-/

namespace GraphQLText

set_option autoImplicit false

inductive LogLevel
  | error
  | warn
  | info
  | debug
  | trace
deriving DecidableEq, Repr, Inhabited

namespace LogLevel

def upperName : LogLevel → String
  | error => "ERROR"
  | warn => "WARN"
  | info => "INFO"
  | debug => "DEBUG"
  | trace => "TRACE"

def lowerName : LogLevel → String
  | error => "error"
  | warn => "warn"
  | info => "info"
  | debug => "debug"
  | trace => "trace"

def all : List LogLevel :=
  [error, warn, info, debug, trace]

/-- The level with the given name, which is all in one case. -/
def ofName? (name : String) : Option LogLevel :=
  all.find? fun level => level.upperName == name || level.lowerName == name

/-- How many levels matter more. -/
def rank : LogLevel → Nat
  | error => 0
  | warn => 1
  | info => 2
  | debug => 3
  | trace => 4

end LogLevel

structure LogEntry where
  level : LogLevel
  message : String
deriving DecidableEq, Repr, Inhabited

namespace LogEntry

/-- Whether the entry is shown when all up to the threshold are. -/
def isShown (threshold : Option LogLevel) (entry : LogEntry) : Bool :=
  match threshold with
  | some limit => entry.level.rank ≤ limit.rank
  | none => false

def shown (threshold : Option LogLevel) (entries : List LogEntry) : List LogEntry :=
  entries.filter (isShown threshold)

/-- A character that could steer a terminal, spelled out. -/
def harmlessChar (c : Char) : List Char :=
  match c with
  | '\x07' => "\\x07".toList
  | '\x08' => "\\x08".toList
  | '\x0c' => "\\x0c".toList
  | '\x1b' => "\\x1b".toList
  | '\x7f' => "\\x7f".toList
  | _ => if 0x80 ≤ c.toNat ∧ c.toNat ≤ 0x9F then Text.codePointEscape c else [c]

def harmless (entry : LogEntry) : LogEntry :=
  { entry with message := String.ofList (entry.message.toList.flatMap harmlessChar) }

end LogEntry

end GraphQLText
