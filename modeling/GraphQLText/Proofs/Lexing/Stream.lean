import GraphQLText.Proofs.Lexing.BlockString
import GraphQLText.Proofs.Lexing.Number
import GraphQLText.Proofs.Lexing.QuotedString
import GraphQLText.Token.Stream

/-!
# The tokens of a text

What a text is made of depends on nothing but what is left when the ignored characters before its
first token are gone. A token that is written out is read back where it may end, and the tokens of
any source have the form that their kind calls for.
-/

namespace GraphQLText

set_option autoImplicit false

def isName (text : String) : Bool :=
  match text.toList with
  | [] => false
  | c :: cs => isNameStart c && cs.all isNameChar

namespace Token

/-- Names and numbers have the form of names and numbers. -/
def WellFormed : Token → Prop
  | name s => isName s = true
  | int s => Number.IsWhole s.toList
  | float s => Number.IsFloat s.toList
  | _ => True

@[simp] theorem wellFormed_punctuator (p : Punctuator) : (punctuator p).WellFormed :=
  trivial

@[simp] theorem wellFormed_string (v : String) : (string v).WellFormed :=
  trivial

@[simp] theorem wellFormed_blockString (v : String) : (blockString v).WellFormed :=
  trivial

@[simp] theorem wellFormed_name {s : String} : (name s).WellFormed ↔ isName s = true :=
  Iff.rfl

/-- The token with a quoted string in place of a block string of the same value. -/
def plain : Token → Token
  | blockString v => string v
  | t => t

end Token

namespace TokenStream

def kinds (stream : TokenStream) : List Token :=
  stream.tokens.map PlacedToken.token

def isComplete (stream : TokenStream) : Bool :=
  match stream.ending with
  | .complete _ => true
  | .broken .. => false

theorem exists_ending {stream : TokenStream} (h : stream.isComplete = true) :
    ∃ offset, stream.ending = .complete offset := by
  unfold isComplete at h
  split at h
  · next offset heq => exact ⟨offset, heq⟩
  · exact absurd h (by simp)

@[simp] theorem kinds_cons (t : PlacedToken) (stream : TokenStream) :
    (cons t stream).kinds = t.token :: stream.kinds := rfl

@[simp] theorem isComplete_cons (t : PlacedToken) (stream : TokenStream) :
    (cons t stream).isComplete = stream.isComplete := rfl

theorem ofChars_of_skip_nil (offset : Nat) {cs : List Char} (h : Ignored.skip false cs = []) :
    ∃ stop, ofChars offset cs = ⟨[], .complete stop⟩ := by
  rw [ofChars]
  simp only
  split
  · exact ⟨_, rfl⟩
  · next heq => simp [h] at heq

theorem ofChars_of_token (offset : Nat) {cs : List Char} {c : Char} {tail rest : List Char}
    {t : Token} (h : Ignored.skip false cs = c :: tail) (hs : Scan.token? c tail = .token t rest) :
    ∃ text start next, ofChars offset cs = cons ⟨t, text, start⟩ (ofChars next rest) := by
  rw [ofChars]
  simp only
  split
  · next heq => simp [h] at heq
  · next d more heq =>
    rw [h] at heq
    obtain ⟨rfl, rfl⟩ := List.cons.inj heq
    split
    · next hb => simp [hs] at hb
    · next t' rest' ht =>
      rw [hs] at ht
      simp only [Scan.token.injEq] at ht
      obtain ⟨rfl, rfl⟩ := ht
      exact ⟨_, _, _, rfl⟩

theorem ofChars_of_broken (offset : Nat) {cs : List Char} {c : Char} {tail text lexeme : List Char}
    {f : Fault} (h : Ignored.skip false cs = c :: tail)
    (hs : Scan.token? c tail = .broken f text lexeme) :
    ∃ start, ofChars offset cs =
      ⟨[], .broken f (String.ofList text) (String.ofList lexeme) start⟩ := by
  rw [ofChars]
  simp only
  split
  · next heq => simp [h] at heq
  · next d more heq =>
    rw [h] at heq
    obtain ⟨rfl, rfl⟩ := List.cons.inj heq
    split
    · next hb =>
      rw [hs] at hb
      simp only [Scan.broken.injEq] at hb
      obtain ⟨rfl, rfl, rfl⟩ := hb
      exact ⟨_, rfl⟩
    · next ht => simp [hs] at ht

end TokenStream

/-- The text is made of the given tokens, with nothing but ignored characters about them. -/
inductive Lexes : List Char → List Token → Prop
  | done {cs : List Char} : Ignored.skip false cs = [] → Lexes cs []
  | token {cs tail rest : List Char} {c : Char} {t : Token} {ts : List Token} :
      Ignored.skip false cs = c :: tail → Scan.token? c tail = .token t rest → Lexes rest ts →
        Lexes cs (t :: ts)

namespace Lexes

/-- Only what follows the ignored characters counts. -/
theorem of_skip_eq {cs ds : List Char} {ts : List Token} (hd : Lexes ds ts)
    (h : Ignored.skip false cs = Ignored.skip false ds) : Lexes cs ts := by
  cases hd with
  | done hn => exact .done (h.trans hn)
  | token hc hs hr => exact .token (h.trans hc) hs hr

theorem ofChars {cs : List Char} {ts : List Token} (h : Lexes cs ts) (offset : Nat) :
    (TokenStream.ofChars offset cs).kinds = ts ∧
      (TokenStream.ofChars offset cs).isComplete = true := by
  induction h generalizing offset with
  | done hn =>
    obtain ⟨stop, heq⟩ := TokenStream.ofChars_of_skip_nil offset hn
    rw [heq]
    exact ⟨rfl, rfl⟩
  | token hc hs _ ih =>
    obtain ⟨text, start, next, heq⟩ := TokenStream.ofChars_of_token offset hc hs
    rw [heq, TokenStream.kinds_cons, TokenStream.isComplete_cons, (ih next).1]
    exact ⟨rfl, (ih next).2⟩

end Lexes

namespace Lead

theorem ofChar_of_isDigit {c : Char} (h : c.isDigit = true) : ofChar c = .number := by
  have hp : Punctuator.ofChar? c = none := by
    unfold Punctuator.ofChar?
    split <;> first | rfl | exact absurd h (by decide)
  have hpoint : c ≠ '.' := by rintro rfl; exact absurd h (by decide)
  have hmark : c ≠ '"' := by rintro rfl; exact absurd h (by decide)
  rw [ofChar, hp]
  simp only
  rw [if_neg hpoint, if_neg hmark, if_pos (.inr h)]

theorem isDigit_of_isNameStart {c : Char} (h : isNameStart c = true) : c.isDigit = false := by
  rw [Bool.eq_false_iff]
  intro hd
  have hnine : c.toNat ≤ 57 := (Char.isDigit_iff_toNat.mp hd).2
  rcases Bool.or_eq_true_iff.mp h with hbar | halpha
  · rw [beq_iff_eq.mp hbar] at hd
    exact absurd hd (by decide)
  · rcases Bool.or_eq_true_iff.mp halpha with hupper | hlower
    · have hrange : 65 ≤ c.toNat ∧ c.toNat ≤ 90 := of_decide_eq_true hupper
      omega
    · have hrange : (decide (97 ≤ c.toNat) && decide (c.toNat ≤ 122)) = true := hlower
      rw [Bool.and_eq_true, decide_eq_true_eq, decide_eq_true_eq] at hrange
      omega

theorem ofChar_of_isNameStart {c : Char} (h : isNameStart c = true) : ofChar c = .name := by
  have hp : Punctuator.ofChar? c = none := by
    unfold Punctuator.ofChar?
    split <;> first | rfl | exact absurd h (by decide)
  have hpoint : c ≠ '.' := by rintro rfl; exact absurd h (by decide)
  have hmark : c ≠ '"' := by rintro rfl; exact absurd h (by decide)
  have hsign : ¬ (c = '-' ∨ c.isDigit = true) := by
    rintro (rfl | hd)
    · exact absurd h (by decide)
    · rw [isDigit_of_isNameStart h] at hd
      exact absurd hd (by decide)
  rw [ofChar, hp]
  simp only
  rw [if_neg hpoint, if_neg hmark, if_neg hsign, if_pos h]

/-- No token begins with a character that may stand between tokens. -/
theorem skip_of_ofChar {c : Char} (h : ofChar c ≠ .other) (tail : List Char) :
    Ignored.skip false (c :: tail) = c :: tail := by
  have hi : ¬ Ignored.isIgnored c = true := by
    intro hc
    simp only [Ignored.isIgnored, Bool.or_eq_true, beq_iff_eq] at hc
    rcases hc with (((((rfl | rfl) | rfl) | rfl) | rfl) | rfl) | rfl <;> exact h (by decide)
  have hcomment : c ≠ '#' := by rintro rfl; exact h (by decide)
  rw [Ignored.skip, if_neg hi, if_neg hcomment]

theorem isNameStart_of_ofChar {c : Char} (h : ofChar c = .name) : isNameStart c = true := by
  unfold ofChar at h
  split at h
  · exact absurd h (by simp)
  · split at h
    · exact absurd h (by simp)
    · split at h
      · exact absurd h (by simp)
      · split at h
        · exact absurd h (by simp)
        · split at h
          · next hname => exact hname
          · exact absurd h (by simp)

end Lead

namespace Scan

theorem wellFormed_of_points {cs rest : List Char} {t : Token} (h : points cs = .token t rest) :
    t.WellFormed := by
  unfold points at h
  split at h
  · simp only [token.injEq] at h
    rw [← h.1]
    trivial
  · exact absurd h (by simp)

theorem wellFormed_of_string {cs rest : List Char} {t : Token} (h : string cs = .token t rest) :
    t.WellFormed := by
  unfold string at h
  split at h
  · split at h
    · simp only [token.injEq] at h
      rw [← h.1]
      trivial
    · exact absurd h (by simp)
  · split at h
    · simp only [token.injEq] at h
      rw [← h.1]
      trivial
    · exact absurd h (by simp)

theorem wellFormed_of_number {c : Char} {cs rest : List Char} {t : Token}
    (h : number c cs = .token t rest) : t.WellFormed := by
  unfold number at h
  split at h
  · next n hn =>
    have hform := Number.form_of_longest? hn
    split at h
    · simp only [token.injEq] at h
      rw [← h.1]
      by_cases hf : n.isFloat = true
      · simpa [hf, Token.WellFormed] using hform
      · simpa [hf, Token.WellFormed] using hform
    · exact absurd h (by simp)
  · exact absurd h (by simp)

theorem wellFormed_of_name {c : Char} {cs rest : List Char} {t : Token} (hc : isNameStart c = true)
    (h : name c cs = .token t rest) : t.WellFormed := by
  simp only [name, token.injEq] at h
  rw [← h.1]
  have hall : (cs.takeWhile isNameChar).all isNameChar = true := List.all_takeWhile
  simp only [Token.WellFormed, isName, String.toList_ofList, hc, hall, Bool.and_true]

theorem wellFormed_of_token? {c : Char} {cs rest : List Char} {t : Token}
    (h : token? c cs = .token t rest) : t.WellFormed := by
  unfold token? at h
  split at h
  · simp only [token.injEq] at h
    rw [← h.1]
    trivial
  · exact wellFormed_of_points h
  · exact wellFormed_of_string h
  · exact wellFormed_of_number h
  · next hlead => exact wellFormed_of_name (Lead.isNameStart_of_ofChar hlead) h
  · exact absurd h (by simp)

end Scan

/-- Whatever stands in a source, its tokens are well formed. -/
theorem TokenStream.wellFormed_of_mem_ofChars (offset : Nat) (cs : List Char) :
    ∀ t ∈ (ofChars offset cs).kinds, t.WellFormed := by
  induction hn : cs.length using Nat.strongRecOn generalizing offset cs with
  | ind n ih =>
    cases hskip : Ignored.skip false cs with
    | nil =>
      obtain ⟨stop, heq⟩ := ofChars_of_skip_nil offset hskip
      intro t ht
      rw [heq] at ht
      exact absurd ht (by simp [kinds])
    | cons c tail =>
      have hlen := Ignored.length_skip_le false cs
      rw [hskip, List.length_cons, hn] at hlen
      cases hs : Scan.token? c tail with
      | token t rest =>
        obtain ⟨text, start, next, heq⟩ := ofChars_of_token offset hskip hs
        have hrest := Scan.length_rest_of_token? hs
        intro u hu
        rw [heq, kinds_cons, List.mem_cons] at hu
        rcases hu with rfl | hu
        · exact Scan.wellFormed_of_token? hs
        · exact ih rest.length (by omega) next rest rfl u hu
      | broken f text lexeme =>
        obtain ⟨start, heq⟩ := ofChars_of_broken offset hskip hs
        intro t ht
        rw [heq] at ht
        exact absurd ht (by simp [kinds])

end GraphQLText
