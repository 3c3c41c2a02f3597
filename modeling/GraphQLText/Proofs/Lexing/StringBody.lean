import GraphQLText.Proofs.Lexing.Broken

/-!
# The body of a quoted string

What may stand between the marks of a quoted string, and what it stands for, said apart from how a
string is read. A string is read just if such a body and a closing mark are ahead, and it makes no
difference where decoding begins: at the opening mark, at the first backslash or in between.
-/

namespace GraphQLText

set_option autoImplicit false

namespace QuotedString

/-- A character that needs no escape: neither the mark nor the backslash, and no control character
but the tab. -/
def StandsForItself (c : Char) : Prop :=
  c ≠ '"' ∧ c ≠ '\\' ∧ (c = '\t' ∨ 0x20 ≤ c.toNat)

/-- What may follow a backslash, with the character that the two stand for. -/
def escapes : List (Char × Char) :=
  [('"', '"'), ('\\', '\\'), ('/', '/'), ('b', '\x08'), ('f', '\x0c'), ('n', '\n'), ('r', '\r'),
    ('t', '\t')]

/-- A hexadecimal digit in either case has the value that is its place among the digits. -/
def HasDigitValue (c : Char) (n : Nat) : Prop :=
  "0123456789abcdef".toList[n]? = some c ∨ "0123456789ABCDEF".toList[n]? = some c

/-- What stands between the marks of a quoted string, and what it stands for. -/
inductive IsBody : List Char → List Char → Prop
  | empty : IsBody [] []
  | plain {c : Char} {body value : List Char} :
      StandsForItself c → IsBody body value → IsBody (c :: body) (c :: value)
  | escape {c x : Char} {body value : List Char} :
      (c, x) ∈ escapes → IsBody body value → IsBody ('\\' :: c :: body) (x :: value)
  | codePoint {a b c d x : Char} {i j k l : Nat} {body value : List Char} :
      HasDigitValue a i → HasDigitValue b j → HasDigitValue c k → HasDigitValue d l →
        x.toNat = ((16 * i + j) * 16 + k) * 16 + l → IsBody body value →
          IsBody ('\\' :: 'u' :: a :: b :: c :: d :: body) (x :: value)

theorem isPlain_iff {c : Char} : isPlain c = true ↔ StandsForItself c := by
  have hblank : ' ' ≤ c ↔ 0x20 ≤ c.toNat := Iff.rfl
  simp [isPlain, StandsForItself, hblank, and_assoc]

theorem simpleEscape?_eq_some_iff {c x : Char} : simpleEscape? c = some x ↔ (c, x) ∈ escapes := by
  constructor
  · intro h
    unfold simpleEscape? at h
    split at h
    case h_9 => cases h
    all_goals
      obtain rfl := Option.some.inj h
      decide
  · intro h
    simp only [escapes, List.mem_cons, Prod.mk.injEq, List.not_mem_nil, or_false] at h
    rcases h with h | h | h | h | h | h | h | h
    all_goals
      obtain ⟨rfl, rfl⟩ := h
      rfl

instance (c : Char) (n : Nat) : Decidable (HasDigitValue c n) :=
  inferInstanceAs (Decidable (_ ∨ _))

theorem toNat_lt_of_hexDigit? {c : Char} {n : Nat} (h : hexDigit? c = some n) :
    c.toNat < 128 := by
  unfold hexDigit? at h
  split at h
  · next hc =>
    have hle : c.toNat ≤ '9'.toNat := (of_decide_eq_true (Bool.and_eq_true_iff.mp hc).2 :)
    exact Nat.lt_of_le_of_lt hle (by decide)
  · split at h
    · next hc => exact Nat.lt_of_le_of_lt hc.2 (by decide)
    · split at h
      · next hc => exact Nat.lt_of_le_of_lt hc.2 (by decide)
      · cases h

theorem hexDigit?_of_digits {digits : List Char} {c : Char} {n : Nat}
    (hdigits : digits.map hexDigit? = (List.range 16).map some) (h : digits[n]? = some c) :
    hexDigit? c = some n := by
  have hmap : ((List.range 16).map some)[n]? = some (hexDigit? c) := by
    rw [← hdigits, List.getElem?_map, h]
    rfl
  obtain ⟨hlt, heq⟩ := List.getElem?_eq_some_iff.mp hmap
  rw [← heq, List.getElem_map, List.getElem_range]

theorem hexDigit?_eq_some_iff {c : Char} {n : Nat} : hexDigit? c = some n ↔ HasDigitValue c n := by
  constructor
  · intro h
    have all : ∀ m < 128, ∀ k ∈ hexDigit? (Char.ofNat m), HasDigitValue (Char.ofNat m) k := by
      decide +kernel
    have hc := all c.toNat (toNat_lt_of_hexDigit? h) n
    rw [Char.ofNat_toNat] at hc
    exact hc h
  · have hlower : "0123456789abcdef".toList.map hexDigit? = (List.range 16).map some := by decide
    have hupper : "0123456789ABCDEF".toList.map hexDigit? = (List.range 16).map some := by decide
    rintro (h | h)
    · exact hexDigit?_of_digits hlower h
    · exact hexDigit?_of_digits hupper h

/-- Four digits spell the character whose code point they are in base sixteen. -/
theorem codePoint?_eq_some_iff {a b c d x : Char} :
    codePoint? a b c d = some x ↔ ∃ i j k l, HasDigitValue a i ∧ HasDigitValue b j ∧
      HasDigitValue c k ∧ HasDigitValue d l ∧
        x.toNat = ((16 * i + j) * 16 + k) * 16 + l := by
  simp only [codePoint?, Option.bind_eq_bind, Option.bind_eq_some_iff, hexDigit?_eq_some_iff]
  constructor
  · rintro ⟨i, hi, j, hj, k, hk, l, hl, h⟩
    split at h
    · next hvalid =>
      obtain rfl := Option.some.inj h
      refine ⟨i, j, k, l, hi, hj, hk, hl, ?_⟩
      rw [Char.ofNat, dif_pos hvalid]
      change (i * 16 + j) * 256 + (k * 16 + l) = _
      omega
    · cases h
  · rintro ⟨i, j, k, l, hi, hj, hk, hl, h⟩
    have hcode : (i * 16 + j) * 256 + (k * 16 + l) = x.toNat := by omega
    refine ⟨i, hi, j, hj, k, hk, l, hl, ?_⟩
    have hvalid : x.toNat.isValidChar := x.valid
    rw [hcode, if_pos hvalid, Char.ofNat_toNat]

theorem prepend_eq_ok {cs value rest : List Char} {o : Outcome} :
    Outcome.prepend cs o = .ok (value, rest) ↔
      ∃ more, o = .ok (more, rest) ∧ value = cs ++ more := by
  cases o with
  | error f => simp
  | ok p =>
    obtain ⟨more, after⟩ := p
    simp only [prepend_ok, Except.ok.injEq, Prod.mk.injEq]
    constructor
    · rintro ⟨rfl, rfl⟩
      exact ⟨more, ⟨rfl, rfl⟩, rfl⟩
    · rintro ⟨more, ⟨rfl, rfl⟩, rfl⟩
      exact ⟨rfl, rfl⟩

theorem exists_body_of_decode {cs value rest : List Char} (h : decode cs = .ok (value, rest)) :
    ∃ body, cs = body ++ '"' :: rest ∧ IsBody body value := by
  fun_induction decode cs generalizing value with
  | case1 => cases h
  | case2 tail =>
    cases h
    exact ⟨[], rfl, .empty⟩
  | case3 a b c d tail x hx ih =>
    obtain ⟨more, hmore, rfl⟩ := prepend_eq_ok.mp h
    obtain ⟨body, rfl, hbody⟩ := ih hmore
    obtain ⟨i, j, k, l, hi, hj, hk, hl, hcode⟩ := codePoint?_eq_some_iff.mp hx
    exact ⟨'\\' :: 'u' :: a :: b :: c :: d :: body, rfl, .codePoint hi hj hk hl hcode hbody⟩
  | case4 => cases h
  | case5 c tail _ x hx ih =>
    obtain ⟨more, hmore, rfl⟩ := prepend_eq_ok.mp h
    obtain ⟨body, rfl, hbody⟩ := ih hmore
    exact ⟨'\\' :: c :: body, rfl, .escape (simpleEscape?_eq_some_iff.mp hx) hbody⟩
  | case6 => cases h
  | case7 c tail _ _ _ hc ih =>
    obtain ⟨more, hmore, rfl⟩ := prepend_eq_ok.mp h
    obtain ⟨body, rfl, hbody⟩ := ih hmore
    exact ⟨c :: body, rfl, .plain (isPlain_iff.mp hc) hbody⟩
  | case8 => cases h
  | case9 => cases h

theorem IsBody.decode {body value : List Char} (h : IsBody body value) (rest : List Char) :
    decode (body ++ '"' :: rest) = .ok (value, rest) := by
  induction h with
  | empty => rfl
  | plain hc _ ih => rw [List.cons_append, decode_plain (isPlain_iff.mpr hc), ih, prepend_ok]; rfl
  | escape hx _ ih =>
    rw [List.cons_append, List.cons_append, decode_simple (simpleEscape?_eq_some_iff.mpr hx), ih,
      prepend_ok]
    rfl
  | codePoint hi hj hk hl hcode _ ih =>
    have hx := codePoint?_eq_some_iff.mpr ⟨_, _, _, _, hi, hj, hk, hl, hcode⟩
    simp only [List.cons_append, QuotedString.decode, hx, ih, prepend_ok, List.nil_append]

/-- Decoding succeeds where a body with a mark behind it is ahead, with what the body stands for. -/
theorem decode_eq_ok_iff {cs value rest : List Char} :
    decode cs = .ok (value, rest) ↔ ∃ body, cs = body ++ '"' :: rest ∧ IsBody body value := by
  constructor
  · exact exists_body_of_decode
  · rintro ⟨body, rfl, hbody⟩
    exact hbody.decode rest

end QuotedString

namespace Scan

open QuotedString

theorem string_of_ne {cs : List Char} (h : ∀ more, cs ≠ '"' :: '"' :: more) :
    string cs =
      match QuotedString.read cs with
      | .ok (value, rest) => .token (.string (String.ofList value)) rest
      | .error fault =>
        .broken fault ('"' :: QuotedString.brokenPart cs) ('"' :: QuotedString.brokenPart cs) := by
  unfold string
  split
  · exact absurd rfl (h _)
  · rfl

/-- Behind one mark stands a string that is read like its body is decoded. -/
theorem token?_mark {cs : List Char} (h : ∀ more, cs ≠ '"' :: '"' :: more) {value : String}
    {rest : List Char} :
    token? '"' cs = .token (.string value) rest ↔ decode cs = .ok (value.toList, rest) := by
  have hmark : Lead.ofChar '"' = .mark := by decide
  rw [token?, hmark, ← read_eq_decode]
  change string cs = _ ↔ _
  rw [string_of_ne h]
  cases hread : QuotedString.read cs with
  | error f => simp
  | ok p =>
    obtain ⟨v, after⟩ := p
    simp only [token.injEq, Token.string.injEq, Except.ok.injEq, Prod.mk.injEq]
    rw [← String.toList_inj, String.toList_ofList]

/-- A single mark begins a string just if a body and a closing mark follow. The string takes these
two and has the value that the body stands for. To read it, decoding may begin behind the opening
mark or behind any of the characters that stand for themselves. -/
theorem token?_mark_eq_string_iff {r : List Char} (h : ∀ more, r ≠ '"' :: '"' :: more) :
    (∀ (value : String) (k : Nat),
      (∃ rest, token? '"' r = .token (.string value) rest ∧
        Text.byteLength (Text.consumed r rest) = k) ↔
      ∃ body rest, r = body ++ '"' :: rest ∧ Text.byteLength body + 1 = k ∧
        IsBody body value.toList) ∧
    decode r = QuotedString.read r ∧
    ∀ plain rest, r = plain ++ rest → (∀ c ∈ plain, StandsForItself c) →
      QuotedString.read r = Outcome.prepend plain (decode rest) := by
  have htaken : ∀ body rest : List Char, r = body ++ '"' :: rest →
      Text.byteLength (Text.consumed r rest) = Text.byteLength body + 1 := by
    rintro body rest rfl
    rw [List.append_cons, Text.consumed_append, Text.byteLength_append]
    rfl
  refine ⟨fun value k => ⟨?_, ?_⟩, (read_eq_decode r).symm, ?_⟩
  · rintro ⟨rest, htoken, rfl⟩
    obtain ⟨body, hr, hbody⟩ := decode_eq_ok_iff.mp ((token?_mark h).mp htoken)
    exact ⟨body, rest, hr, (htaken body rest hr).symm, hbody⟩
  · rintro ⟨body, rest, hr, rfl, hbody⟩
    exact ⟨rest, (token?_mark h).mpr (decode_eq_ok_iff.mpr ⟨body, hr, hbody⟩), htaken body rest hr⟩
  · rintro plain rest rfl hplain
    rw [read_eq_decode]
    exact decode_append_plain (fun c hc => isPlain_iff.mpr (hplain c hc)) rest

/-- A string of two escapes, behind which the text goes on. -/
theorem token?_mark_eq_string_iff_escapes :
    (∀ more, "\\u00E9\\\"\" x".toList ≠ '"' :: '"' :: more) ∧
      ∃ rest, token? '"' "\\u00E9\\\"\" x".toList = .token (.string "é\"") rest ∧
        Text.byteLength (Text.consumed "\\u00E9\\\"\" x".toList rest) = 9 := by
  have h : ∀ more, "\\u00E9\\\"\" x".toList ≠ '"' :: '"' :: more := by
    rintro more ⟨⟩
  have hbody : IsBody "\\u00E9\\\"".toList "é\"".toList := by
    refine .codePoint (i := 0) (j := 0) (k := 14) (l := 9) ?_ ?_ ?_ ?_ ?_ (.escape ?_ .empty)
    all_goals decide
  exact ⟨h, ((token?_mark_eq_string_iff h).1 _ _).mpr
    ⟨"\\u00E9\\\"".toList, " x".toList, by decide, by decide, hbody⟩⟩

end Scan

end GraphQLText
