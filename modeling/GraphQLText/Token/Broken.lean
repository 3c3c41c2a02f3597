import GraphQLText.Token.Stream

/-!
# Broken tokens

Where no token can be read, reading can go on behind the text that the fault covers, so that a source
may have several broken tokens. Why a broken token is none is told once more from the source and the
span of the token: by its first characters and, for strings, by a second look at the text behind it.
-/

namespace GraphQLText

set_option autoImplicit false

structure BrokenToken where
  fault : Fault
  /-- The text that the fault covers. -/
  text : String
  /-- The text that a report of the fault shows. -/
  lexeme : String
  start : Nat
deriving DecidableEq, Repr, Inhabited

namespace BrokenToken

def span (b : BrokenToken) : Span :=
  ⟨b.start, b.start + Text.byteLength b.text.toList⟩

end BrokenToken

namespace Lead

/-- The character is told from the kind of token, for all kinds with just one. -/
theorem eq_of_ofChar {c : Char} : (ofChar c = .point → c = '.') ∧ (ofChar c = .mark → c = '"') := by
  unfold ofChar
  repeat' split
  all_goals simp_all

end Lead

namespace Scan

theorem brokenPart_prefix (body : List Char) : QuotedString.brokenPart body <+: body := by
  unfold QuotedString.brokenPart
  split
  · exact List.takeWhile_prefix _
  · exact List.nil_prefix

theorem exists_rest_of_string {cs text lexeme : List Char} {fault : Fault}
    (h : string cs = .broken fault text lexeme) :
    ∃ more rest, text = '"' :: more ∧ cs = more ++ rest := by
  unfold string at h
  split at h
  · next body =>
    split at h
    · cases h
    · simp only [broken.injEq] at h
      exact ⟨['"', '"'], body, h.2.1.symm, rfl⟩
  · split at h
    · cases h
    · simp only [broken.injEq] at h
      obtain ⟨rest, hrest⟩ := brokenPart_prefix cs
      exact ⟨_, rest, h.2.1.symm, hrest.symm⟩

theorem exists_rest_of_number {c : Char} {cs text lexeme : List Char} {fault : Fault}
    (h : number c cs = .broken fault text lexeme) :
    ∃ more rest, text = c :: more ∧ cs = more ++ rest := by
  unfold number at h
  split at h
  · next n hn =>
    split at h
    · cases h
    · simp only [broken.injEq] at h
      obtain ⟨more, hmore, hcs⟩ := Number.exists_text_of_longest? hn
      exact ⟨more, n.rest, by rw [← h.2.1, hmore], hcs.symm⟩
  · simp only [broken.injEq] at h
    exact ⟨[], cs, h.2.1.symm, rfl⟩

/-- A broken token takes at least the character that it begins with. -/
theorem exists_rest_of_broken {c : Char} {cs text lexeme : List Char} {fault : Fault}
    (h : token? c cs = .broken fault text lexeme) :
    ∃ more rest, text = c :: more ∧ cs = more ++ rest := by
  unfold token? at h
  split at h
  · cases h
  · next hlead =>
    unfold points at h
    split at h
    · cases h
    · simp only [broken.injEq] at h
      exact ⟨[], cs, by rw [← h.2.1, Lead.eq_of_ofChar.1 hlead], rfl⟩
  · next hlead =>
    obtain ⟨more, rest, rfl, hcs⟩ := exists_rest_of_string h
    exact ⟨more, rest, by rw [Lead.eq_of_ofChar.2 hlead], hcs⟩
  · exact exists_rest_of_number h
  · cases h
  · simp only [broken.injEq] at h
    exact ⟨[], cs, h.2.1.symm, rfl⟩

end Scan

namespace TokenStream

/-- The broken tokens of a text whose first character stands at `offset`, where reading goes on behind
each of them. -/
def brokenOfChars (offset : Nat) (cs : List Char) : List BrokenToken :=
  let ahead := Ignored.skip false cs
  let start := offset + Text.byteLength (Text.consumed cs ahead)
  match _h : ahead with
  | [] => []
  | c :: tail =>
    match _hs : Scan.token? c tail with
    | .token _ rest =>
      brokenOfChars (start + Text.byteLength (Text.consumed (c :: tail) rest)) rest
    | .broken fault text lexeme =>
      ⟨fault, String.ofList text, String.ofList lexeme, start⟩ ::
        brokenOfChars (start + Text.byteLength text) ((c :: tail).drop text.length)
termination_by cs.length
decreasing_by
  all_goals
    have hskip := Ignored.length_skip_le false cs
    have hlen := congrArg List.length _h
    simp only [ahead, List.length_cons] at hlen
  · have hrest := Scan.length_rest_of_token? _hs
    omega
  · obtain ⟨more, rest, rfl, -⟩ := Scan.exists_rest_of_broken _hs
    simp only [List.length_cons, List.length_drop]
    omega

def brokenOfText (source : String) : List BrokenToken :=
  brokenOfChars 0 source.toList

end TokenStream

namespace BlockString

/-- What stands in the way of reading a block string in the text behind its opening mark, unless a
closing mark comes first. -/
def recheck : List Char → Option Fault
  | [] => some .unterminatedBlockString
  | '\\' :: '"' :: '"' :: '"' :: rest => recheck rest
  | '"' :: '"' :: '"' :: _ => none
  | c :: rest => if isForbidden c then some .invalidCharacter else recheck rest

end BlockString

namespace QuotedString

def recheck : List Char → Option Fault
  | [] => some .unterminatedString
  | '"' :: _ => none
  | '\\' :: 'u' :: a :: b :: c :: d :: rest =>
    if (codePoint? a b c d).isSome then recheck rest else some .invalidEscape
  | '\\' :: c :: rest =>
    if (simpleEscape? c).isSome then recheck rest else some .invalidEscape
  | c :: rest =>
    if c = '\n' ∨ c = '\r' then some .unterminatedString
    else if BlockString.isForbidden c then some .invalidCharacter
    else if c = '\\' then some .invalidEscape
    else recheck rest

end QuotedString

namespace Fault

def recheck (source : List Char) (span : Span) : Option Fault :=
  match Text.slice span source with
  | '"' :: '"' :: '"' :: _ => BlockString.recheck (Text.dropBytes span.stop source)
  | '"' :: _ => QuotedString.recheck (Text.dropBytes span.stop source)
  | c :: _ => some (if c = '-' ∨ c.isDigit then .invalidNumber else .unexpectedCharacter)
  | [] => some .unexpectedCharacter

def classify (source : List Char) (span : Span) : Fault :=
  (recheck source span).getD <|
    match Text.slice span source with
    | '"' :: '"' :: '"' :: _ => .unterminatedBlockString
    | _ => .unterminatedString

end Fault

namespace BrokenToken

/-- The text that a report shows of the broken token at a span of a source. A broken number is shown
with all that it runs into. -/
def lexemeAt (source : List Char) (span : Span) : List Char :=
  let text := Text.slice span source
  match text with
  | c :: _ =>
    if c = '-' ∨ c.isDigit then
      text ++ (Text.dropBytes span.stop source).takeWhile Number.isTail
    else
      text
  | [] => []

end BrokenToken

end GraphQLText
