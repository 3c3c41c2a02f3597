import GraphQLText.Token.QuotedString

/-!
# Reading back quoted strings

Taking a run of plain characters at once is the same as decoding from the opening mark on. A value
that is written with escapes is decoded to itself, whatever follows the closing mark.
-/

namespace GraphQLText.QuotedString

set_option autoImplicit false

@[simp] theorem prepend_ok (cs value rest : List Char) :
    Outcome.prepend cs (.ok (value, rest)) = .ok (cs ++ value, rest) := rfl

@[simp] theorem prepend_error (cs : List Char) (f : Fault) :
    Outcome.prepend cs (.error f) = .error f := rfl

@[simp] theorem prepend_nil (o : Outcome) : Outcome.prepend [] o = o := by
  cases o <;> rfl

theorem prepend_prepend (xs ys : List Char) (o : Outcome) :
    Outcome.prepend xs (Outcome.prepend ys o) = Outcome.prepend (xs ++ ys) o := by
  cases o with
  | error f => rfl
  | ok p => simp [Outcome.prepend, Except.map]

theorem isPlain_quote : isPlain '"' = false := by decide

theorem isPlain_backslash : isPlain '\\' = false := by decide

theorem decode_plain {c : Char} (h : isPlain c = true) (cs : List Char) :
    decode (c :: cs) = Outcome.prepend [c] (decode cs) := by
  have hq : c ≠ '"' := by rintro rfl; simp [isPlain_quote] at h
  have hb : c ≠ '\\' := by rintro rfl; simp [isPlain_backslash] at h
  rw [decode]
  · simp [h]
  · exact fun he => absurd he hq
  · exact fun _ _ _ _ _ he => absurd he hb
  · exact fun _ _ he => absurd he hb

/-- The fast path over plain characters gives what decoding gives. -/
theorem read_eq_decode (body : List Char) : read body = decode body := by
  induction body with
  | nil => simp [read, decode]
  | cons c cs ih =>
    by_cases h : isPlain c = true
    · rw [decode_plain h, ← ih]
      simp only [read, List.takeWhile_cons_of_pos h, List.dropWhile_cons_of_pos h]
      split <;> simp [prepend_prepend]
    · simp only [read, List.takeWhile_cons_of_neg h, List.dropWhile_cons_of_neg h]
      split
      · contradiction
      · next rest heq => cases heq; simp [decode]
      · next rest heq => cases heq; simp
      · next d rest hq hb heq =>
        cases heq
        rw [decode]
        · simp only [h, Bool.false_eq_true, if_false]
          rw [if_neg hb]
        · exact hq
        · exact fun _ _ _ _ _ he _ => hb he
        · exact fun _ _ he _ => hb he

theorem upperHexDigit_toNat {n : Nat} (h : n < 16) : hexDigit? (upperHexDigit n) = some n := by
  have all : ∀ m < 16, hexDigit? (upperHexDigit m) = some m := by decide
  exact all n h

/-- The four digits written for a control character spell it. -/
theorem codePoint?_control {c : Char} (h : c < ' ') :
    codePoint? '0' '0' (upperHexDigit (c.toNat / 16)) (upperHexDigit (c.toNat % 16)) = some c := by
  have hc : c.toNat < 32 := h
  have hzero : hexDigit? '0' = some 0 := by decide
  have hhigh := upperHexDigit_toNat (n := c.toNat / 16) (by omega)
  have hlow := upperHexDigit_toNat (n := c.toNat % 16) (by omega)
  have hsum : c.toNat / 16 * 16 + c.toNat % 16 = c.toNat := by omega
  have hvalid : c.toNat.isValidChar := c.valid
  simp only [codePoint?, hzero, hhigh, hlow, Option.bind_eq_bind, Option.bind_some, Nat.zero_mul,
    Nat.zero_add, hsum, hvalid, if_true, Char.ofNat_toNat]

theorem isPlain_of_not_special {c : Char} (hq : c ≠ '"') (hb : c ≠ '\\') (h : ¬ c < ' ') :
    isPlain c = true := by
  have hge : ' ' ≤ c := Char.not_lt.mp h
  simp [isPlain, hq, hb, hge]

/-- What is written for one character is decoded to that character. -/
theorem decode_escape (c : Char) (rest : List Char) :
    decode (escape c ++ rest) = Outcome.prepend [c] (decode rest) := by
  unfold escape
  split
  case h_8 h1 h2 h3 h4 h5 hq hb =>
    split
    · next h =>
      simp only [List.cons_append, List.nil_append]
      rw [decode, codePoint?_control h]
    · next h => exact decode_plain (isPlain_of_not_special hq hb h) rest
  all_goals simp [decode, simpleEscape?]

theorem decode_escapes (value rest : List Char) :
    decode (value.flatMap escape ++ '"' :: rest) = .ok (value, rest) := by
  induction value with
  | nil => simp [decode]
  | cons c value ih =>
    rw [List.flatMap_cons, List.append_assoc, decode_escape, ih]
    rfl

/-- A written string is read back, up to its closing mark. -/
theorem read_escapes (value rest : List Char) :
    read (value.flatMap escape ++ '"' :: rest) = .ok (value, rest) := by
  rw [read_eq_decode, decode_escapes]

/-- What is written for a character never begins with a mark, so that no quoted string looks like
the beginning of a block string. -/
theorem head?_escape (c : Char) : (escape c).head? ≠ some '"' := by
  unfold escape
  split
  case h_8 h1 h2 h3 h4 h5 hq hb =>
    split
    · simp
    · simpa using hq
  all_goals simp

end GraphQLText.QuotedString
