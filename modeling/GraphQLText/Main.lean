import GraphQLText.Command.Run

/-!
# The command
-/

open GraphQLText GraphQLText.Command

def readContent (file : String) : IO FileContent := do
  try
    return FileContent.ofBytes (← IO.FS.readBinFile file)
  catch
    | .noFileOrDirectory _ number reason => return FileContent.refused reason number.toNat
    | .permissionDenied _ number reason => return FileContent.refused reason number.toNat
    | .inappropriateType _ number reason => return FileContent.refused reason number.toNat
    | .invalidArgument _ number reason => return FileContent.refused reason number.toNat
    | e => return .unreadable (toString e)

/-- Prints the document in the file that the command line names. -/
def main (arguments : List String) : IO UInt32 := do
  match Request.ofArguments? arguments with
  | none =>
    IO.eprint helpText
    return usageStatus.toUInt32
  | some request =>
    let content ← match request with
      | .print file _ => readContent file
      | _ => pure FileContent.missing
    let outcome := run request (← IO.getEnv "LOG_LEVEL") content
    for entry in outcome.logs do
      IO.eprintln (entry.level.upperName ++ " " ++ entry.message)
    IO.print outcome.output
    IO.eprint outcome.errors
    return outcome.status.toUInt32
