/-!
# Command lines

What a command line asks for. Arguments are taken from left to right: the first that asks for help
or for the version decides, unless one before it is in error.
-/

namespace GraphQLText.Command

set_option autoImplicit false

inductive Request
  | help
  | version
  | print (file : String) (verbose : Bool)
deriving DecidableEq, Repr, Inhabited

/-- What the arguments seen so far amount to. -/
structure Partial where
  file : Option String
  verbose : Bool
deriving DecidableEq, Repr, Inhabited

namespace Partial

def start : Partial := ⟨none, false⟩

def withFile? (p : Partial) (file : String) : Option Partial :=
  if p.file.isSome then none else some { p with file := some file }

def withVerbose? (p : Partial) : Option Partial :=
  if p.verbose then none else some { p with verbose := true }

def hasValidFile (p : Partial) : Bool :=
  p.file != some ""

end Partial

/-- What an argument comes to: an answer at once, or more to go on with. -/
inductive Step
  | answer (request : Request)
  | proceed (p : Partial)
deriving DecidableEq, Repr

/-- Takes the letters of an argument that begins with a hyphen, or nothing if one is unknown. -/
def letters (p : Partial) : List Char → Option Step
  | [] => some (.proceed p)
  | 'h' :: _ => if p.hasValidFile then some (.answer .help) else none
  | 'V' :: _ => if p.hasValidFile then some (.answer .version) else none
  | 'v' :: rest => do letters (← p.withVerbose?) rest
  | _ :: _ => none

def switch (p : Partial) (argument : String) : Option Step :=
  match argument.toList with
  | '-' :: '-' :: name =>
    if name = "help".toList then if p.hasValidFile then some (.answer .help) else none
    else if name = "version".toList then if p.hasValidFile then some (.answer .version) else none
    else if name = "verbose".toList then p.withVerbose?.map .proceed
    else none
  | '-' :: c :: rest => letters p (c :: rest)
  | _ => (p.withFile? argument).map .proceed

namespace Request

/-- What the arguments behind the given ones ask for. After two hyphens no argument is a switch. -/
def ofArgumentsFrom : Bool → Partial → List String → Option Request
  | _, p, [] =>
    match p.file with
    | some file => if p.hasValidFile then some (.print file p.verbose) else none
    | none => none
  | true, p, argument :: rest => do ofArgumentsFrom true (← p.withFile? argument) rest
  | false, p, argument :: rest =>
    if argument = "--" then
      ofArgumentsFrom true p rest
    else
      match switch p argument with
      | some (.answer request) => some request
      | some (.proceed p) => ofArgumentsFrom false p rest
      | none => none

def ofArguments? (arguments : List String) : Option Request :=
  ofArgumentsFrom false Partial.start arguments

end Request

end GraphQLText.Command
