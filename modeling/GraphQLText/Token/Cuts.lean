import GraphQLText.Text.Bytes
import GraphQLText.Token.Broken

/-!
# Tokens by positions

Strings are cut out of the text behind their opening mark by the positions at which something is
found there. Quoted strings are gone through character by character, block strings byte by byte. A
position within a character or behind the end of the text cuts nothing, so that there may be no
outcome at all.
-/

namespace GraphQLText

set_option autoImplicit false

namespace QuotedString

def codePointOf? : List Char → Option Char
  | [a, b, c, d] => codePoint? a b c d
  | _ => none

def decodeCut? (body : List Char) : Nat → List Char → Option Outcome
  | _, [] => some (.error .unterminatedString)
  | stop, '"' :: _ => do
    let (_, rest) ← Text.cut? (stop + 1) body
    return .ok ([], rest)
  | stop, '\\' :: 'u' :: a :: b :: c :: d :: rest => do
    let escape := ['\\', 'u', a, b, c, d]
    let (_, digits) ← Text.cut? 2 escape
    match codePointOf? digits with
    | some x =>
      let outcome ← decodeCut? body (stop + Text.byteLength escape) rest
      return Outcome.prepend [x] outcome
    | none => return .error .invalidEscape
  | stop, '\\' :: c :: rest =>
    match simpleEscape? c with
    | some x => do
      let outcome ← decodeCut? body (stop + Text.byteLength ['\\', c]) rest
      return Outcome.prepend [x] outcome
    | none => some (.error .invalidEscape)
  | stop, c :: rest =>
    if isPlain c then do
      let outcome ← decodeCut? body (stop + c.utf8Size) rest
      return Outcome.prepend [c] outcome
    else if c = '\\' then some (.error .invalidEscape)
    else some (.error (strayFault c))

/-- Reads `body` from the position `stop` on, where all before it stands for itself. If that fails,
the token has come as far as the position that is given with the fault. -/
def readCut? (body : List Char) :
    Nat → List Char → Option (Except (Fault × Nat) (List Char × List Char))
  | _, [] => some (.error (.unterminatedString, 0))
  | stop, c :: rest =>
    if c = '\n' ∨ c = '\r' then some (.error (.unterminatedString, 0))
    else if BlockString.isForbidden c then some (.error (.invalidCharacter, 0))
    else if c = '\\' then do
      let (plain, behind) ← Text.cut? stop body
      let outcome ← decodeCut? behind 0 behind
      return (Outcome.prepend plain outcome).mapError (·, stop)
    else if c = '"' then do
      let (_, behind) ← Text.cut? (stop + 1) body
      let plain ← Text.piece? ⟨0, stop⟩ body
      return .ok (plain, behind)
    else readCut? body (stop + c.utf8Size) rest

end QuotedString

namespace BlockString

inductive Mark
  | escaped
  | closing
  | control
  | other
deriving DecidableEq, Repr

/-- A triple mark that does not close the string. -/
def escapedMark : List Char := ['\\', '"', '"', '"']

def closingMark : List Char := ['"', '"', '"']

def markAt? (bs : List UInt8) (position : Nat) : Option Mark := do
  let ahead ← Text.bytesFrom? position bs
  if Text.bytes escapedMark <+: ahead then
    return .escaped
  else if Text.bytes closingMark <+: ahead then
    return .closing
  else
    let byte ← bs[position]?
    return if isForbidden (Char.ofNat byte.toNat) then .control else .other

/-- Reads `body`, whose bytes are `bs`, from a position on. What it holds up to `last` has been
copied to `raw`. -/
def readCut? (body : List Char) (bs : List UInt8) (raw : List Char) (last position : Nat) :
    Option (Except Fault (List Char × List Char)) :=
  if _h : position < bs.length then do
    match ← markAt? bs position with
    | .escaped =>
      let piece ← Text.piece? ⟨last, position⟩ body
      readCut? body bs (raw ++ piece ++ closingMark) (position + 4) (position + 4)
    | .closing =>
      let piece ← Text.piece? ⟨last, position⟩ body
      let (_, rest) ← Text.cut? (position + 3) body
      return .ok (raw ++ piece, rest)
    | .control => return .error .invalidCharacter
    | .other => readCut? body bs raw last (position + 1)
  else
    some (.error .unterminatedBlockString)
termination_by bs.length - position

/-- The line from a position on. Of a line that is shorter, nothing is left. -/
def dropCut? (position : Nat) (line : List Char) : Option (List Char) :=
  if Text.byteLength line < position then some []
  else (Text.cut? position line).map Prod.snd

def dedentCut? : List (List Char) → Option (List (List Char))
  | [] => some []
  | first :: rest => do
    let rest ← rest.mapM (dropCut? (commonIndent rest))
    return first :: rest

def valueCut? (raw : List Char) : Option (List Char) := do
  let ls ← dedentCut? (Text.lines (normalizeLineEnds raw))
  return Text.unlines (trimBlank ls)

/-- What stands in the way of reading a block string from a position on. -/
def recheckCut? (bs : List UInt8) (position : Nat) : Option (Option Fault) :=
  if _h : position < bs.length then do
    match ← markAt? bs position with
    | .escaped => recheckCut? bs (position + 4)
    | .closing => return none
    | .control => return some .invalidCharacter
    | .other => recheckCut? bs (position + 1)
  else
    some (some .unterminatedBlockString)
termination_by bs.length - position

end BlockString

namespace Scan

def stringCut? : List Char → Option Scan
  | '"' :: '"' :: body => do
    match ← BlockString.readCut? body (Text.bytes body) [] 0 0 with
    | .ok (raw, rest) =>
      let value ← BlockString.valueCut? raw
      return .token (.blockString (String.ofList value)) rest
    | .error fault => return .broken fault BlockString.closingMark BlockString.closingMark
  | body => do
    match ← QuotedString.readCut? body 0 body with
    | .ok (value, rest) => return .token (.string (String.ofList value)) rest
    | .error (fault, stop) =>
      let (part, _) ← Text.cut? stop body
      return .broken fault ('"' :: part) ('"' :: part)

def tokenCut? (c : Char) (cs : List Char) : Option Scan :=
  match Lead.ofChar c with
  | .mark => stringCut? cs
  | _ => some (token? c cs)

end Scan

def Fault.classifyCut? (source : List Char) (span : Span) : Option Fault := do
  let text ← Text.piece? span source
  match text with
  | '"' :: '"' :: '"' :: _ =>
    let (_, behind) ← Text.cut? span.stop source
    let found ← BlockString.recheckCut? (Text.bytes behind) 0
    return found.getD .unterminatedBlockString
  | '"' :: _ =>
    let (_, behind) ← Text.cut? span.stop source
    return (QuotedString.recheck behind).getD .unterminatedString
  | c :: _ => return if c = '-' ∨ c.isDigit then .invalidNumber else .unexpectedCharacter
  | [] => return .unexpectedCharacter

def BrokenToken.lexemeCut? (source : List Char) (span : Span) : Option (List Char) := do
  let text ← Text.piece? span source
  match text with
  | c :: _ =>
    if c = '-' ∨ c.isDigit then
      let (_, rest) ← Text.cut? span.stop source
      let width := (Text.firstNot? Number.isTail rest).getD (Text.byteLength rest)
      Text.piece? ⟨span.start, span.stop + width⟩ source
    else
      return text
  | [] => return []

end GraphQLText
