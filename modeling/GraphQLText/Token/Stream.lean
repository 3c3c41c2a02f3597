import GraphQLText.Text.Span
import GraphQLText.Token.Basic
import GraphQLText.Token.Ignored
import GraphQLText.Token.Number

/-!
# Token streams

A source text as the list of its tokens, each with the place where it stands. The stream ends with
the text, or else at the first place where no token can be read. Every token takes at least one
character, so the stream of a text is finite.
-/

namespace GraphQLText

set_option autoImplicit false

/-- What a token can be, told from its first character. -/
inductive Lead
  | punctuator (p : Punctuator)
  | point
  | mark
  | number
  | name
  | other
deriving DecidableEq, Repr

def Lead.ofChar (c : Char) : Lead :=
  match Punctuator.ofChar? c with
  | some p => .punctuator p
  | none =>
    if c = '.' then .point
    else if c = '"' then .mark
    else if c = '-' ∨ c.isDigit then .number
    else if isNameStart c then .name
    else .other

inductive Scan
  | token (token : Token) (rest : List Char)
  /-- No token. The fault covers `text`, and a report of it shows `lexeme`. -/
  | broken (fault : Fault) (text lexeme : List Char)
deriving DecidableEq, Repr

namespace Scan

/-- A run of three points, given the text behind the first. -/
def points : List Char → Scan
  | '.' :: '.' :: rest => .token (.punctuator .ellipsis) rest
  | _ => .broken .unexpectedCharacter ['.'] ['.']

def string : List Char → Scan
  | '"' :: '"' :: body =>
    match BlockString.read body with
    | .ok (raw, rest) => .token (.blockString (String.ofList (BlockString.value raw))) rest
    | .error fault => .broken fault ['"', '"', '"'] ['"', '"', '"']
  | body =>
    match QuotedString.read body with
    | .ok (value, rest) => .token (.string (String.ofList value)) rest
    | .error fault =>
      let text := '"' :: QuotedString.brokenPart body
      .broken fault text text

/-- A number that begins with `c`. A report of a broken one shows all that it runs into. -/
def number (c : Char) (cs : List Char) : Scan :=
  match Number.longest? (c :: cs) with
  | some n =>
    if Number.mayEndBefore n.rest then
      let text := String.ofList n.text
      .token (if n.isFloat then .float text else .int text) n.rest
    else
      .broken .invalidNumber n.text (n.text ++ n.rest.takeWhile Number.isTail)
  | none => .broken .invalidNumber [c] (c :: cs.takeWhile Number.isTail)

def name (c : Char) (cs : List Char) : Scan :=
  .token (.name (String.ofList (c :: cs.takeWhile isNameChar))) (cs.dropWhile isNameChar)

def token? (c : Char) (cs : List Char) : Scan :=
  match Lead.ofChar c with
  | .punctuator p => .token (.punctuator p) cs
  | .point => points cs
  | .mark => string cs
  | .number => number c cs
  | .name => name c cs
  | .other => .broken .unexpectedCharacter [c] [c]

theorem length_rest_of_points {cs rest : List Char} {t : Token}
    (h : points cs = .token t rest) : rest.length ≤ cs.length := by
  unfold points at h
  split at h
  · simp only [Scan.token.injEq] at h
    simp only [← h.2, List.length_cons]
    omega
  · simp at h

theorem length_rest_of_string {cs rest : List Char} {t : Token}
    (h : string cs = .token t rest) : rest.length ≤ cs.length := by
  unfold string at h
  split at h
  · split at h
    · next heq =>
      simp only [Scan.token.injEq] at h
      have := (BlockString.read_suffix heq).length_le
      simp only [← h.2, List.length_cons]
      omega
    · simp at h
  · split at h
    · next heq =>
      simp only [Scan.token.injEq] at h
      exact h.2 ▸ (QuotedString.read_suffix heq).length_le
    · simp at h

theorem length_rest_of_number {c : Char} {cs rest : List Char} {t : Token}
    (h : number c cs = .token t rest) : rest.length ≤ cs.length := by
  unfold number at h
  split at h
  · next n heq =>
    split at h
    · simp only [Scan.token.injEq] at h
      have := Number.longest?_length_lt heq
      simp only [List.length_cons] at this
      rw [← h.2]
      omega
    · simp at h
  · simp at h

theorem length_rest_of_token? {c : Char} {cs rest : List Char} {t : Token}
    (h : token? c cs = .token t rest) : rest.length ≤ cs.length := by
  unfold token? at h
  split at h
  · simp only [Scan.token.injEq] at h
    simp [← h.2]
  · exact length_rest_of_points h
  · exact length_rest_of_string h
  · exact length_rest_of_number h
  · simp only [name, Scan.token.injEq] at h
    exact h.2 ▸ (List.dropWhile_suffix _).length_le
  · simp at h

end Scan

structure PlacedToken where
  token : Token
  /-- The token as the source has it. -/
  text : String
  start : Nat
deriving DecidableEq, Repr, Inhabited

namespace PlacedToken

def span (t : PlacedToken) : Span :=
  ⟨t.start, t.start + Text.byteLength t.text.toList⟩

end PlacedToken

inductive Ending
  | complete (offset : Nat)
  | broken (fault : Fault) (text lexeme : String) (start : Nat)
deriving DecidableEq, Repr, Inhabited

namespace Ending

/-- Where the next token would have stood. -/
def span : Ending → Span
  | complete offset => ⟨offset, offset⟩
  | broken _ text _ start => ⟨start, start + Text.byteLength text.toList⟩

end Ending

structure TokenStream where
  tokens : List PlacedToken
  ending : Ending
deriving DecidableEq, Repr, Inhabited

namespace TokenStream

def cons (t : PlacedToken) (stream : TokenStream) : TokenStream :=
  { stream with tokens := t :: stream.tokens }

/-- The tokens of a text whose first character stands at `offset`. -/
def ofChars (offset : Nat) (cs : List Char) : TokenStream :=
  let ahead := Ignored.skip false cs
  let start := offset + Text.byteLength (Text.consumed cs ahead)
  match _h : ahead with
  | [] => ⟨[], .complete start⟩
  | c :: tail =>
    match _hs : Scan.token? c tail with
    | .broken fault text lexeme =>
      ⟨[], .broken fault (String.ofList text) (String.ofList lexeme) start⟩
    | .token token rest =>
      let text := Text.consumed (c :: tail) rest
      cons ⟨token, String.ofList text, start⟩ (ofChars (start + Text.byteLength text) rest)
termination_by cs.length
decreasing_by
  have hrest := Scan.length_rest_of_token? _hs
  have hskip := Ignored.length_skip_le false cs
  have hlen := congrArg List.length _h
  simp only [ahead, List.length_cons] at hlen
  omega

def ofText (source : String) : TokenStream :=
  ofChars 0 source.toList

end TokenStream

end GraphQLText
