import GraphQLText.Command.Request
import GraphQLText.Document.Layout
import GraphQLText.Document.Parse
import GraphQLText.Text.White

/-!
# Running the command

Prints the document in a file in its canonical form. If the document cannot be read, the diagnostic
goes to the error stream and the status tells that the run failed.
-/

namespace GraphQLText.Command

set_option autoImplicit false

inductive FileContent
  | text (source : String)
  | unreadable (reason : String)
deriving DecidableEq, Repr, Inhabited

namespace FileContent

/-- The system refuses to read the file. It gives a reason and the number of the reason. -/
def refused (reason : String) (number : Nat) : FileContent :=
  .unreadable (reason ++ " (os error " ++ toString number ++ ")")

def missing : FileContent :=
  refused "No such file or directory" 2

def directory : FileContent :=
  refused "Is a directory" 21

/-- The name leads through a file as if it were a directory. -/
def belowFile : FileContent :=
  refused "Not a directory" 20

def nameTooLong : FileContent :=
  refused "File name too long" 36

def ofBytes (bytes : ByteArray) : FileContent :=
  match String.fromUTF8? bytes with
  | some source => .text source
  | none => .unreadable "stream did not contain valid UTF-8"

end FileContent

structure Outcome where
  status : Nat
  output : String
  errors : String
  logs : List LogEntry
deriving DecidableEq, Repr, Inhabited

def failureStatus : Nat := 1

def usageStatus : Nat := 2

def versionText : String :=
  "print_ast 0.1.0\n"

def helpText : String :=
  "Print a GraphQL document in canonical form\n\n" ++
  "Usage: print_ast [OPTIONS] <FILE>\n\n" ++
  "Arguments:\n" ++
  "  <FILE>  Path to the GraphQL document to print.\n\n" ++
  "Options:\n" ++
  "  -v, --verbose  Enable verbose output.\n" ++
  "  -h, --help     Print help\n" ++
  "  -V, --version  Print version\n"

def defaultLevel : LogLevel := .warn

/-- The level to show, and a warning if the setting of it names none. -/
def chooseLevel (verbose : Bool) (setting : Option String) : LogLevel × List LogEntry :=
  if verbose then
    (.debug, [])
  else
    match setting.map Text.trimWhite with
    | none => (defaultLevel, [])
    | some name =>
      match LogLevel.ofName? name with
      | some level => (level, [])
      | none =>
        (defaultLevel,
          [⟨.warn, "Invalid `LOG_LEVEL` environment variable value: `" ++ name ++ "`"⟩])

def printFile (file : String) (verbose : Bool) (setting : Option String)
    (content : FileContent) : Outcome :=
  let (level, warnings) := chooseLevel verbose setting
  let opening : List LogEntry :=
    ⟨.trace, "Initial logging level set to `" ++ level.lowerName ++ "`."⟩ :: warnings ++
      [⟨.debug, "Reading `" ++ file ++ "`."⟩]
  let shown (entries : List LogEntry) : List LogEntry :=
    (LogEntry.shown (some level) (opening ++ entries)).map LogEntry.harmless
  match content with
  | .unreadable reason =>
    { status := failureStatus
      output := ""
      errors := "Failed to read `" ++ file ++ "`: " ++ reason ++ "\n"
      logs := shown [] }
  | .text source =>
    match Document.parseLogged source with
    | (entries, .ok document) =>
      { status := 0, output := document.print ++ "\n", errors := "", logs := shown entries }
    | (entries, .error diagnostic) =>
      { status := failureStatus
        output := ""
        errors := diagnostic.full ++ "\n"
        logs := shown entries }

/-- Answers a request. The content is that of the file which the request names, if it names one. -/
def run (request : Request) (setting : Option String) (content : FileContent) : Outcome :=
  match request with
  | .help => { status := 0, output := helpText, errors := "", logs := [] }
  | .version => { status := 0, output := versionText, errors := "", logs := [] }
  | .print file verbose => printFile file verbose setting content

end GraphQLText.Command
