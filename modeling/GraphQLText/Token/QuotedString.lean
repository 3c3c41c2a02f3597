import GraphQLText.Token.Fault

/-!
# Quoted strings

The text between two quotation marks on one line, in which a backslash introduces an escape. What
`write` produces, `read` takes back to the same value.
-/

namespace GraphQLText.QuotedString

set_option autoImplicit false

/-- The characters that stand for themselves: all but the quotation mark, the backslash and the
control characters other than the tab. -/
def isPlain (c : Char) : Bool :=
  c != '"' && c != '\\' && (c == '\t' || ' ' ≤ c)

def strayFault (c : Char) : Fault :=
  if c = '\n' ∨ c = '\r' then .unterminatedString else .invalidCharacter

def simpleEscape? : Char → Option Char
  | '"' => some '"'
  | '\\' => some '\\'
  | '/' => some '/'
  | 'b' => some '\x08'
  | 'f' => some '\x0c'
  | 'n' => some '\n'
  | 'r' => some '\r'
  | 't' => some '\t'
  | _ => none

def hexDigit? (c : Char) : Option Nat :=
  if c.isDigit then some (c.toNat - '0'.toNat)
  else if 'a' ≤ c ∧ c ≤ 'f' then some (c.toNat - 'a'.toNat + 10)
  else if 'A' ≤ c ∧ c ≤ 'F' then some (c.toNat - 'A'.toNat + 10)
  else none

def codePoint? (a b c d : Char) : Option Char := do
  let high := (← hexDigit? a) * 16 + (← hexDigit? b)
  let low := (← hexDigit? c) * 16 + (← hexDigit? d)
  let code := high * 256 + low
  if code.isValidChar then some (Char.ofNat code) else none

/-- The outcome of reading a string: its value and the text behind it, or what stands in the way. -/
abbrev Outcome := Except Fault (List Char × List Char)

def Outcome.prepend (cs : List Char) (outcome : Outcome) : Outcome :=
  outcome.map fun (value, rest) => (cs ++ value, rest)

/-- Reads characters and escapes up to the closing quotation mark. -/
def decode : List Char → Outcome
  | [] => .error .unterminatedString
  | '"' :: rest => .ok ([], rest)
  | '\\' :: 'u' :: a :: b :: c :: d :: rest =>
    match codePoint? a b c d with
    | some x => Outcome.prepend [x] (decode rest)
    | none => .error .invalidEscape
  | '\\' :: c :: rest =>
    match simpleEscape? c with
    | some x => Outcome.prepend [x] (decode rest)
    | none => .error .invalidEscape
  | c :: rest =>
    if isPlain c then Outcome.prepend [c] (decode rest)
    else if c = '\\' then .error .invalidEscape
    else .error (strayFault c)

/-- Reads the text behind an opening quotation mark. Characters that stand for themselves are taken
as they are, and decoding begins at the first backslash. -/
def read (body : List Char) : Outcome :=
  let plain := body.takeWhile isPlain
  match body.dropWhile isPlain with
  | [] => .error .unterminatedString
  | '"' :: rest => .ok (plain, rest)
  | '\\' :: rest => Outcome.prepend plain (decode ('\\' :: rest))
  | c :: _ => .error (strayFault c)

/-- How much of the text behind the opening mark belongs to a string that cannot be read: all before
the first backslash if reading got so far, and else nothing. -/
def brokenPart (body : List Char) : List Char :=
  match body.dropWhile isPlain with
  | '\\' :: _ => body.takeWhile isPlain
  | _ => []

def upperHexDigit (n : Nat) : Char :=
  (Nat.digitChar n).toUpper

def escape (c : Char) : List Char :=
  match c with
  | '\r' => ['\\', 'r']
  | '\n' => ['\\', 'n']
  | '\t' => ['\\', 't']
  | '\x08' => ['\\', 'b']
  | '\x0c' => ['\\', 'f']
  | '"' => ['\\', '"']
  | '\\' => ['\\', '\\']
  | _ =>
    if c < ' ' then
      ['\\', 'u', '0', '0', upperHexDigit (c.toNat / 16), upperHexDigit (c.toNat % 16)]
    else
      [c]

def write (value : List Char) : List Char :=
  '"' :: value.flatMap escape ++ ['"']

theorem decode_suffix {cs value rest : List Char} (h : decode cs = .ok (value, rest)) :
    rest <:+ cs := by
  fun_induction decode cs generalizing value with
  | case1 => simp at h
  | case2 tail =>
    simp only [Except.ok.injEq, Prod.mk.injEq] at h
    exact h.2 ▸ List.suffix_cons _ _
  | case3 a b c d tail x _ ih =>
    cases ht : decode tail with
    | error f => simp [ht, Outcome.prepend, Except.map] at h
    | ok p =>
      simp only [ht, Outcome.prepend, Except.map, Except.ok.injEq, Prod.mk.injEq] at h
      have hp : decode tail = .ok (p.1, rest) := by rw [ht, ← h.2]
      exact (ih hp).trans ⟨['\\', 'u', a, b, c, d], rfl⟩
  | case4 => simp at h
  | case5 c tail _ x _ ih =>
    cases ht : decode tail with
    | error f => simp [ht, Outcome.prepend, Except.map] at h
    | ok p =>
      simp only [ht, Outcome.prepend, Except.map, Except.ok.injEq, Prod.mk.injEq] at h
      have hp : decode tail = .ok (p.1, rest) := by rw [ht, ← h.2]
      exact (ih hp).trans ⟨['\\', c], rfl⟩
  | case6 => simp at h
  | case7 c tail _ _ _ _ ih =>
    cases ht : decode tail with
    | error f => simp [ht, Outcome.prepend, Except.map] at h
    | ok p =>
      simp only [ht, Outcome.prepend, Except.map, Except.ok.injEq, Prod.mk.injEq] at h
      have hp : decode tail = .ok (p.1, rest) := by rw [ht, ← h.2]
      exact (ih hp).trans (List.suffix_cons c tail)
  | case8 => simp at h
  | case9 => simp at h

theorem read_suffix {body value rest : List Char} (h : read body = .ok (value, rest)) :
    rest <:+ body := by
  have hd : body.dropWhile isPlain <:+ body := List.dropWhile_suffix _
  unfold read at h
  split at h
  · simp at h
  · next tail heq =>
    simp only [Except.ok.injEq, Prod.mk.injEq] at h
    rw [heq] at hd
    exact h.2 ▸ (List.suffix_cons _ _).trans hd
  · next tail heq =>
    rw [heq] at hd
    cases ht : decode ('\\' :: tail) with
    | error f => simp [ht, Outcome.prepend, Except.map] at h
    | ok p =>
      simp only [ht, Outcome.prepend, Except.map, Except.ok.injEq, Prod.mk.injEq] at h
      have hp : decode ('\\' :: tail) = .ok (p.1, rest) := by rw [ht, ← h.2]
      exact (decode_suffix hp).trans hd
  · simp at h

end GraphQLText.QuotedString
