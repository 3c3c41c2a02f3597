import GraphQLText.Document.Reader
import GraphQLText.Log

/-!
# Parsing documents with a log
-/

namespace GraphQLText.Document

set_option autoImplicit false

/-- The document that a source text is, or what is wrong with the text, and what there is to tell
about the run. -/
def parseLogged (source : String) : List LogEntry × Except Diagnostic Document :=
  let opening : LogEntry :=
    ⟨.trace, "Parsing document of " ++ toString source.utf8ByteSize ++ " bytes"⟩
  match parse source with
  | .ok d =>
    ([opening, ⟨.debug, "Parsed " ++ toString d.definitions.length ++ " definitions"⟩], .ok d)
  | .error e =>
    ([opening, ⟨.debug, "Failed to parse document: " ++ e.short⟩], .error e)

end GraphQLText.Document
