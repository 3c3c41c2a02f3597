import GraphQLText.Proofs.Lexing.Stepwise

/-!
# Why a token is broken

What stops the reading of a string first is told apart from how reading finds it: by the characters
and escapes that a string is made of. The second look at a broken token, which begins where the
fault ends and not where the string does, finds the same thing, and never a closing mark.
-/

namespace GraphQLText

set_option autoImplicit false

namespace QuotedString

/-- One character of a string, or one escape. -/
inductive IsPart : List Char → Prop
  | plain {c : Char} : isPlain c = true → IsPart [c]
  | simple {c x : Char} : simpleEscape? c = some x → IsPart ['\\', c]
  | codePoint {a b c d x : Char} : codePoint? a b c d = some x → IsPart ['\\', 'u', a, b, c, d]

/-- What a string cannot go on with, apart from its closing mark. -/
inductive Stops : List Char → Fault → Prop
  | ended : Stops [] .unterminatedString
  | lineEnd {c : Char} {rest : List Char} :
      c = '\n' ∨ c = '\r' → Stops (c :: rest) .unterminatedString
  | control {c : Char} {rest : List Char} :
      BlockString.isForbidden c = true → Stops (c :: rest) .invalidCharacter
  | escape {rest : List Char} :
      (∀ part, IsPart part → ¬ part <+: '\\' :: rest) → Stops ('\\' :: rest) .invalidEscape

/-- What stops a string first, from left to right. -/
inductive FirstFault : List Char → Fault → Prop
  | stops {rest : List Char} {f : Fault} : Stops rest f → FirstFault rest f
  | part {part rest : List Char} {f : Fault} :
      IsPart part → FirstFault rest f → FirstFault (part ++ rest) f

theorem prepend_eq_error {cs : List Char} {o : Outcome} {f : Fault} :
    Outcome.prepend cs o = .error f ↔ o = .error f := by
  cases o <;> simp [Outcome.prepend, Except.map]

/-- A backslash stops a string where neither form of an escape follows. -/
theorem Stops.of_no_escape {rest : List Char}
    (hsimple : ∀ c more, rest = c :: more → simpleEscape? c = none)
    (hcode : ∀ a b c d more, rest = 'u' :: a :: b :: c :: d :: more → codePoint? a b c d = none) :
    Stops ('\\' :: rest) .invalidEscape := by
  refine .escape fun part hpart ⟨more, hmore⟩ => ?_
  cases hpart with
  | plain hc =>
    obtain ⟨rfl, -⟩ := List.cons.inj hmore
    simp [isPlain_backslash] at hc
  | simple hc =>
    obtain ⟨-, rfl⟩ := List.cons.inj hmore
    simp [hsimple _ _ rfl] at hc
  | codePoint hc =>
    obtain ⟨-, rfl⟩ := List.cons.inj hmore
    simp [hcode _ _ _ _ _ rfl] at hc

theorem decode_part {part : List Char} (h : IsPart part) (rest : List Char) :
    ∃ x, decode (part ++ rest) = Outcome.prepend [x] (decode rest) := by
  cases h with
  | plain hc => exact ⟨_, decode_plain hc rest⟩
  | simple hc => exact ⟨_, decode_simple hc rest⟩
  | @codePoint _ _ _ _ x hc => exact ⟨x, by simp [decode, hc]⟩

theorem decode_append_plain {plain : List Char} (h : ∀ c ∈ plain, isPlain c = true)
    (rest : List Char) : decode (plain ++ rest) = Outcome.prepend plain (decode rest) := by
  induction plain with
  | nil => simp
  | cons c plain ih =>
    rw [List.cons_append, decode_plain (h c (List.mem_cons_self ..)),
      ih fun d hd => h d (List.mem_cons_of_mem c hd), prepend_prepend]
    rfl

theorem isForbidden_of_not_plain {c : Char} (hmark : c ≠ '"') (hback : c ≠ '\\')
    (hend : ¬ (c = '\n' ∨ c = '\r')) (h : isPlain c = false) :
    BlockString.isForbidden c = true := by
  have hlow : c < ' ' := by
    by_cases hlow : c < ' '
    · exact hlow
    · simp [isPlain_of_not_special hmark hback hlow] at h
  have htab : c ≠ '\t' := by
    rintro rfl
    exact absurd h (by decide)
  obtain ⟨hfeed, hreturn⟩ := not_or.mp hend
  simp [BlockString.isForbidden, hlow, htab, hfeed, hreturn]

theorem firstFault_of_decode {body : List Char} {f : Fault} (h : decode body = .error f) :
    FirstFault body f := by
  fun_induction decode body with
  | case1 =>
    cases h
    exact .stops .ended
  | case2 => cases h
  | case3 a b c d rest x hx ih => exact .part (.codePoint hx) (ih (prepend_eq_error.mp h))
  | case4 a b c d rest hx =>
    cases h
    refine .stops (.of_no_escape ?_ ?_)
    · rintro e more ⟨⟩
      rfl
    · rintro a' b' c' d' more ⟨⟩
      exact hx
  | case5 c rest hcode x hx ih => exact .part (.simple hx) (ih (prepend_eq_error.mp h))
  | case6 c rest hcode hx =>
    cases h
    -- here `c` may be `u`, in front of too few characters for a code point
    refine .stops (.of_no_escape ?_ ?_)
    · rintro e more ⟨⟩
      exact hx
    · rintro a b c' d more ⟨⟩
      exact absurd rfl (hcode a b c' d more rfl)
  | case7 c rest hmark hcode hsimple hc ih =>
    exact .part (.plain hc) (ih (prepend_eq_error.mp h))
  | case8 rest hmark hcode hsimple hc =>
    cases h
    refine .stops (.of_no_escape ?_ ?_)
    · intro e more he
      exact absurd he (hsimple e more rfl)
    · intro a b c d more he
      exact absurd he (hsimple 'u' _ rfl)
  | case9 c rest hmark hcode hsimple hc hback =>
    cases h
    by_cases hend : c = '\n' ∨ c = '\r'
    · rw [strayFault, if_pos hend]
      exact .stops (.lineEnd hend)
    · rw [strayFault, if_neg hend]
      exact .stops (.control (isForbidden_of_not_plain hmark hback hend (by simpa using hc)))

theorem decode_stray {c : Char} (hmark : c ≠ '"') (hback : c ≠ '\\') (hc : isPlain c = false)
    (rest : List Char) : decode (c :: rest) = .error (strayFault c) := by
  rw [decode]
  · simp [hc, hback]
  · exact hmark
  · exact fun _ _ _ _ _ he => absurd he hback
  · exact fun _ _ he => absurd he hback

theorem decode_of_stops {rest : List Char} {f : Fault} (h : Stops rest f) :
    decode rest = .error f := by
  cases h with
  | ended => rfl
  | lineEnd hend =>
    rcases hend with rfl | rfl
    all_goals exact decode_stray (by decide) (by decide) (by decide) _
  | @control c rest hc =>
    simp only [BlockString.isForbidden, Bool.and_eq_true, decide_eq_true_eq, bne_iff_ne] at hc
    obtain ⟨⟨⟨hlow, htab⟩, hfeed⟩, hreturn⟩ := hc
    have hmark : c ≠ '"' := by
      rintro rfl
      exact absurd hlow (by decide)
    have hback : c ≠ '\\' := by
      rintro rfl
      exact absurd hlow (by decide)
    have hplain : isPlain c = false := by
      simp [isPlain, htab, Char.not_le.mpr hlow]
    rw [decode_stray hmark hback hplain, strayFault, if_neg (by simp [hfeed, hreturn])]
  | @escape rest hnone =>
    have hcode : ∀ a b c d more, rest = 'u' :: a :: b :: c :: d :: more →
        codePoint? a b c d = none := by
      rintro a b c d more rfl
      exact Option.eq_none_iff_forall_ne_some.mpr fun x hx => hnone _ (.codePoint hx) ⟨more, rfl⟩
    have hsimple : ∀ c more, rest = c :: more → simpleEscape? c = none := by
      rintro c more rfl
      exact Option.eq_none_iff_forall_ne_some.mpr fun x hx => hnone _ (.simple hx) ⟨more, rfl⟩
    -- with neither form of an escape ahead, only the equations that fail are left
    rw [decode.eq_def]
    split
    · contradiction
    · next heq => exact absurd (List.cons.inj heq).1 (by decide)
    · next heq =>
      cases heq
      rw [hcode _ _ _ _ _ rfl]
    · next heq =>
      cases heq
      rw [hsimple _ _ rfl]
    · next heq =>
      cases heq
      rfl

/-- Decoding fails for what stops the string first. -/
theorem decode_eq_error_iff {body : List Char} {f : Fault} :
    decode body = .error f ↔ FirstFault body f := by
  refine ⟨firstFault_of_decode, fun h => ?_⟩
  induction h with
  | stops hrest => exact decode_of_stops hrest
  | part hpart _ ih =>
    obtain ⟨x, hx⟩ := decode_part hpart _
    rw [hx, prepend_eq_error, ih]

theorem recheck_eq_some_iff {body : List Char} {f : Fault} :
    recheck body = some f ↔ decode body = .error f := by
  fun_induction recheck body with
  | case1 => simp [decode]
  | case2 => simp [decode]
  | case3 a b c d rest hx ih =>
    obtain ⟨x, hx⟩ := Option.isSome_iff_exists.mp hx
    rw [ih, decode, hx, prepend_eq_error]
  | case4 a b c d rest hx =>
    rw [decode, Option.not_isSome_iff_eq_none.mp hx]
    simp
  | case5 c rest hcode hx ih =>
    obtain ⟨x, hx⟩ := Option.isSome_iff_exists.mp hx
    rw [ih, decode_simple hx, prepend_eq_error]
  | case6 c rest hcode hx =>
    rw [decode, Option.not_isSome_iff_eq_none.mp hx]
    simp
    exact hcode
  | case7 c rest hmark hcode hsimple hend => simp [decode_of_stops (.lineEnd hend)]
  | case8 c rest hmark hcode hsimple hend hc => simp [decode_of_stops (.control hc)]
  | case9 rest hmark hcode hsimple =>
    have hstops : Stops ('\\' :: rest) .invalidEscape :=
      .of_no_escape (fun c more he => absurd he (hsimple c more rfl))
        fun a b c d more he => absurd he (hsimple 'u' _ rfl)
    simp [decode_of_stops hstops]
  | case10 c rest hmark hcode hsimple hend hc hback ih =>
    have hplain : isPlain c = true := by
      cases hp : isPlain c with
      | true => rfl
      | false => exact absurd (isForbidden_of_not_plain hmark hback hend hp) hc
    rw [ih, decode_plain hplain, prepend_eq_error]

end QuotedString

namespace BlockString

/-- From the first text on, reading comes to the second one without an unescaped closing mark: it
passes over escaped marks and over single characters. -/
inductive Passes : List Char → List Char → Prop
  | refl (cs : List Char) : Passes cs cs
  | mark {rest behind : List Char} :
      Passes rest behind → Passes ('\\' :: '"' :: '"' :: '"' :: rest) behind
  | char {c : Char} {rest behind : List Char} :
      (∀ more, c :: rest ≠ '\\' :: '"' :: '"' :: '"' :: more) →
      (∀ more, c :: rest ≠ '"' :: '"' :: '"' :: more) → Passes rest behind →
        Passes (c :: rest) behind

theorem map_eq_error {α β : Type} {g : α → β} {o : Except Fault α} {f : Fault} :
    o.map g = .error f ↔ o = .error f := by
  cases o <;> simp [Except.map]

theorem read_forbidden {c : Char} (hc : isForbidden c = true) (rest : List Char) :
    read (c :: rest) = .error .invalidCharacter := by
  rw [read]
  · simp [hc]
  · rintro more rfl
    exact absurd hc (by decide)
  · rintro more rfl
    exact absurd hc (by decide)

/-- Reading does not get behind a forbidden character that it comes to. -/
theorem read_of_passes {body rest : List Char} {c : Char} (h : Passes body (c :: rest))
    (hc : isForbidden c = true) : read body = .error .invalidCharacter := by
  generalize hcs : c :: rest = cs at h
  induction h with
  | refl => rw [← hcs, read_forbidden hc]
  | mark _ ih => rw [read, map_eq_error, ih hcs]
  | @char d more behind hmark hclose _ ih =>
    by_cases hd : isForbidden d = true
    · rw [read_forbidden hd]
    · rw [read_cons, map_eq_error, ih hcs]
      · rintro after rfl rfl
        exact hmark after rfl
      · rintro after rfl rfl
        exact hclose after rfl
      · simpa using hd

theorem exists_passes_of_read {body : List Char} {f : Fault} (h : read body = .error f) :
    f = .invalidCharacter ∧ (∃ c rest, Passes body (c :: rest) ∧ isForbidden c = true) ∨
      f = .unterminatedBlockString := by
  fun_induction read body with
  | case1 =>
    cases h
    exact .inr rfl
  | case2 rest ih =>
    rcases ih (map_eq_error.mp h) with ⟨hf, c, behind, hpass, hc⟩ | hf
    · exact .inl ⟨hf, c, behind, hpass.mark, hc⟩
    · exact .inr hf
  | case3 => cases h
  | case4 c rest hmark hclose hc =>
    cases h
    exact .inl ⟨rfl, c, rest, .refl _, hc⟩
  | case5 c rest hmark hclose hc ih =>
    rcases ih (map_eq_error.mp h) with ⟨hf, d, behind, hpass, hd⟩ | hf
    · refine .inl ⟨hf, d, behind, hpass.char ?_ ?_, hd⟩
      · rintro more ⟨⟩
        exact hmark more rfl rfl
      · rintro more ⟨⟩
        exact hclose more rfl rfl
    · exact .inr hf

theorem recheck_eq_some_iff {body : List Char} {f : Fault} :
    recheck body = some f ↔ read body = .error f := by
  fun_induction recheck body with
  | case1 => simp [read]
  | case2 rest ih => rw [ih, read, map_eq_error]
  | case3 => simp [read]
  | case4 c rest hmark hclose hc => simp [read_forbidden hc]
  | case5 c rest hmark hclose hc ih =>
    rw [ih, read_cons (fun more he hr => hmark more he hr) (fun more he hr => hclose more he hr)
      (by simpa using hc), map_eq_error]

end BlockString

namespace Fault

/-- Why the text begins with no token: its first characters tell what the token would be, and the
body of a string what stops it first. -/
inductive Explains : Fault → List Char → Prop
  | number {c : Char} {rest : List Char} : c = '-' ∨ c.isDigit = true →
      Explains .invalidNumber (c :: rest)
  | blockCharacter {body rest : List Char} {c : Char} : BlockString.Passes body (c :: rest) →
      BlockString.isForbidden c = true → Explains .invalidCharacter ('"' :: '"' :: '"' :: body)
  | blockEnd {body : List Char} :
      (∀ c rest, BlockString.Passes body (c :: rest) → BlockString.isForbidden c = false) →
        Explains .unterminatedBlockString ('"' :: '"' :: '"' :: body)
  | string {body : List Char} {f : Fault} : (∀ more, body ≠ '"' :: '"' :: more) →
      QuotedString.FirstFault body f → Explains f ('"' :: body)
  | other {c : Char} {rest : List Char} : c ≠ '"' → ¬ (c = '-' ∨ c.isDigit = true) →
      Explains .unexpectedCharacter (c :: rest)

theorem Explains.unique {cs : List Char} {f g : Fault} (hf : Explains f cs) (hg : Explains g cs) :
    f = g := by
  cases hf with
  | number hc =>
    cases hg with
    | number => rfl
    | other _ hother => exact absurd hc hother
    | _ => exact absurd hc (by decide)
  | blockCharacter hpass hc =>
    cases hg with
    | number hmark => exact absurd hmark (by decide)
    | blockCharacter => rfl
    | blockEnd hnone => simp [hnone _ _ hpass] at hc
    | string hbody => exact absurd rfl (hbody _)
    | other hmark => exact absurd rfl hmark
  | blockEnd hnone =>
    cases hg with
    | number hmark => exact absurd hmark (by decide)
    | blockCharacter hpass hc => simp [hnone _ _ hpass] at hc
    | blockEnd => rfl
    | string hbody => exact absurd rfl (hbody _)
    | other hmark => exact absurd rfl hmark
  | string hbody hfirst =>
    cases hg with
    | number hmark => exact absurd hmark (by decide)
    | blockCharacter => exact absurd rfl (hbody _)
    | blockEnd => exact absurd rfl (hbody _)
    | string _ hfirst' =>
      have hdecode := QuotedString.decode_eq_error_iff.mpr hfirst
      rw [QuotedString.decode_eq_error_iff.mpr hfirst'] at hdecode
      exact (Except.error.inj hdecode).symm
    | other hmark => exact absurd rfl hmark
  | other hmark hnumber =>
    cases hg with
    | number hc => exact absurd hc hnumber
    | other => rfl
    | _ => exact absurd rfl hmark

theorem recheck_append (before text rest : List Char) :
    recheck (before ++ (text ++ rest))
        ⟨Text.byteLength before, Text.byteLength before + Text.byteLength text⟩ =
      match text with
      | '"' :: '"' :: '"' :: _ => BlockString.recheck rest
      | '"' :: _ => QuotedString.recheck rest
      | c :: _ => some (if c = '-' ∨ c.isDigit then .invalidNumber else .unexpectedCharacter)
      | [] => some .unexpectedCharacter := by
  rewrite [recheck, Text.slice_append, ← List.append_assoc, ← Text.byteLength_append,
    Text.dropBytes_byteLength_append]
  rfl

/-- A second look at what is no string goes by the first character alone. -/
theorem recheck_of_ne {c : Char} (hc : c ≠ '"') (before more rest : List Char) :
    recheck (before ++ (c :: more ++ rest))
        ⟨Text.byteLength before, Text.byteLength before + Text.byteLength (c :: more)⟩ =
      some (if c = '-' ∨ c.isDigit then .invalidNumber else .unexpectedCharacter) := by
  rw [recheck_append]
  split
  · next heq => exact absurd (List.cons.inj heq).1 hc
  · next heq => exact absurd (List.cons.inj heq).1 hc
  · next heq =>
    obtain ⟨rfl, -⟩ := List.cons.inj heq
    rfl
  · next heq => cases heq

end Fault

theorem Lead.ofChar_eq_number_iff {c : Char} :
    ofChar c = .number ↔ c = '-' ∨ c.isDigit = true := by
  constructor
  · unfold ofChar
    repeat' split
    all_goals simp_all
  · rintro (rfl | hc)
    · decide
    · exact ofChar_of_isDigit hc

theorem QuotedString.isPlain_of_mem_brokenPart {body : List Char} {c : Char}
    (h : c ∈ brokenPart body) : isPlain c = true := by
  unfold brokenPart at h
  split at h
  · exact List.all_eq_true.mp List.all_takeWhile c h
  · cases h

namespace Scan

open Fault

theorem explains_of_string {cs text lexeme : List Char} {f : Fault}
    (h : string cs = .broken f text lexeme) : Explains f ('"' :: cs) := by
  unfold string at h
  split at h
  · split at h
    · cases h
    · next body f hread =>
      simp only [broken.injEq] at h
      obtain ⟨rfl, -, -⟩ := h
      rcases BlockString.exists_passes_of_read hread with ⟨rfl, c, rest, hpass, hc⟩ | rfl
      · exact .blockCharacter hpass hc
      · refine .blockEnd fun c rest hpass => ?_
        cases hc : BlockString.isForbidden c with
        | false => rfl
        | true =>
          rw [BlockString.read_of_passes hpass hc] at hread
          cases hread
  · next hblock =>
    split at h
    · cases h
    · next f hread =>
      simp only [broken.injEq] at h
      obtain ⟨rfl, -, -⟩ := h
      rw [QuotedString.read_eq_decode] at hread
      exact .string hblock (QuotedString.decode_eq_error_iff.mp hread)

theorem recheck_of_string {cs text lexeme : List Char} {f : Fault}
    (h : string cs = .broken f text lexeme) (before : List Char) :
    recheck (before ++ '"' :: cs)
      ⟨Text.byteLength before, Text.byteLength before + Text.byteLength text⟩ = some f := by
  unfold string at h
  split at h
  · next body =>
    split at h
    · cases h
    · next hread =>
      simp only [broken.injEq] at h
      obtain ⟨rfl, rfl, -⟩ := h
      exact (recheck_append before ['"', '"', '"'] body).trans
        (BlockString.recheck_eq_some_iff.mpr hread)
  · split at h
    · cases h
    · next hread =>
      simp only [broken.injEq] at h
      obtain ⟨rfl, rfl, -⟩ := h
      have hplain := @QuotedString.isPlain_of_mem_brokenPart cs
      obtain ⟨rest, hrest⟩ := brokenPart_prefix cs
      rw [QuotedString.read_eq_decode] at hread
      generalize QuotedString.brokenPart cs = plain at hplain hrest ⊢
      subst hrest
      rw [QuotedString.decode_append_plain fun c hc => hplain hc,
        QuotedString.prepend_eq_error] at hread
      rw [← List.cons_append, recheck_append]
      -- the covered text has no mark but the first, so it does not look like a block string
      split
      · next heq =>
        obtain ⟨-, rfl⟩ := List.cons.inj heq
        simp [QuotedString.isPlain_quote] at hplain
      · exact QuotedString.recheck_eq_some_iff.mpr hread
      · next hmark heq => exact absurd (List.cons.inj heq).1.symm (by simpa using hmark)
      · next heq => cases heq

theorem fault_of_points {cs text lexeme : List Char} {f : Fault}
    (h : points cs = .broken f text lexeme) : f = .unexpectedCharacter := by
  unfold points at h
  split at h
  · cases h
  · simp only [broken.injEq] at h
    exact h.1.symm

theorem fault_of_number {c : Char} {cs text lexeme : List Char} {f : Fault}
    (h : number c cs = .broken f text lexeme) : f = .invalidNumber := by
  unfold number at h
  split at h
  · split at h
    · cases h
    · simp only [broken.injEq] at h
      exact h.1.symm
  · simp only [broken.injEq] at h
    exact h.1.symm

/-- What is no string is broken for a reason that its first character tells. -/
theorem fault_of_broken {c : Char} (hc : c ≠ '"') {cs text lexeme : List Char} {f : Fault}
    (h : token? c cs = .broken f text lexeme) :
    f = if c = '-' ∨ c.isDigit then .invalidNumber else .unexpectedCharacter := by
  have hother : Lead.ofChar c ≠ .number →
      (if c = '-' ∨ c.isDigit then .invalidNumber else .unexpectedCharacter) =
        Fault.unexpectedCharacter := fun hlead => if_neg (mt Lead.ofChar_eq_number_iff.mpr hlead)
  unfold token? at h
  split at h
  · cases h
  · next hlead => rw [fault_of_points h, hother (by simp [hlead])]
  · next hlead => exact absurd (Lead.eq_of_ofChar.2 hlead) hc
  · next hlead => rw [fault_of_number h, if_pos (Lead.ofChar_eq_number_iff.mp hlead)]
  · cases h
  · next hlead =>
    simp only [broken.injEq] at h
    rw [← h.1, hother (by simp [hlead])]

theorem lexeme_of_string {cs text lexeme : List Char} {f : Fault}
    (h : string cs = .broken f text lexeme) : lexeme = text := by
  unfold string at h
  split at h
  all_goals
    split at h
    · cases h
    · simp only [broken.injEq] at h
      exact h.2.2.symm.trans h.2.1

theorem lexeme_of_number {c : Char} {cs text lexeme rest : List Char} {f : Fault}
    (h : number c cs = .broken f text lexeme) (hrest : c :: cs = text ++ rest) :
    lexeme = text ++ rest.takeWhile Number.isTail := by
  unfold number at h
  split at h
  · next n hn =>
    split at h
    · cases h
    · simp only [broken.injEq] at h
      obtain ⟨-, rfl, rfl⟩ := h
      rw [← Number.longest?_append hn] at hrest
      rw [List.append_cancel_left hrest]
  · simp only [broken.injEq] at h
    obtain ⟨-, rfl, rfl⟩ := h
    rw [(List.cons.inj hrest).2]
    rfl

/-- A report shows a broken token as it is, and a number with all that it runs into. -/
theorem lexeme_of_broken {c : Char} {cs text lexeme rest : List Char} {f : Fault}
    (h : token? c cs = .broken f text lexeme) (hrest : c :: cs = text ++ rest) :
    lexeme = if c = '-' ∨ c.isDigit then text ++ rest.takeWhile Number.isTail else text := by
  have hother : Lead.ofChar c ≠ .number → lexeme = text →
      lexeme = if c = '-' ∨ c.isDigit then text ++ rest.takeWhile Number.isTail else text :=
    fun hlead heq => by rw [if_neg (mt Lead.ofChar_eq_number_iff.mpr hlead), heq]
  unfold token? at h
  split at h
  · cases h
  · next hlead =>
    unfold points at h
    split at h
    · cases h
    · simp only [broken.injEq] at h
      exact hother (by simp [hlead]) (h.2.2.symm.trans h.2.1)
  · next hlead => exact hother (by simp [hlead]) (lexeme_of_string h)
  · next hlead => rw [if_pos (Lead.ofChar_eq_number_iff.mp hlead), lexeme_of_number h hrest]
  · cases h
  · next hlead =>
    simp only [broken.injEq] at h
    exact hother (by simp [hlead]) (h.2.2.symm.trans h.2.1)

/-- The reason for a broken token, which a second look at it confirms. -/
theorem explains_of_broken {c : Char} {cs text lexeme : List Char} {f : Fault}
    (h : token? c cs = .broken f text lexeme) (before : List Char) :
    Explains f (c :: cs) ∧
      recheck (before ++ c :: cs)
        ⟨Text.byteLength before, Text.byteLength before + Text.byteLength text⟩ = some f := by
  by_cases hc : c = '"'
  · subst hc
    exact ⟨explains_of_string h, recheck_of_string h before⟩
  · obtain rfl := fault_of_broken hc h
    obtain ⟨more, rest, rfl, rfl⟩ := exists_rest_of_broken h
    refine ⟨?_, recheck_of_ne hc before more rest⟩
    split
    · next hnumber => exact .number hnumber
    · next hnumber => exact .other hc hnumber

end Scan

namespace TokenStream

/-- Where a broken token stands, no token can be read. -/
theorem exists_of_mem_brokenOfChars {offset : Nat} {cs : List Char} {b : BrokenToken}
    (h : b ∈ brokenOfChars offset cs) :
    ∃ before c tail text lexeme, cs = before ++ c :: tail ∧
      Scan.token? c tail = .broken b.fault text lexeme ∧
      b = ⟨b.fault, String.ofList text, String.ofList lexeme,
        offset + Text.byteLength before⟩ := by
  obtain ⟨before, c, text, rest, hcs, hfound⟩ :=
    exists_of_mem_lexemesOfChars (mem_brokenOfChars_iff.mp h)
  rcases hfound with ⟨t, -, hb⟩ | ⟨fault, lexeme, hs, hb⟩
  · cases hb
  · obtain rfl := Lexeme.broken.inj hb
    exact ⟨before, c, text ++ rest, c :: text, lexeme, hcs, hs, rfl⟩

/-- A stream ends with its text if nothing in the text is broken, and else at the first broken token. -/
theorem ending_ofChars (offset : Nat) (cs : List Char) :
    match (ofChars offset cs).ending with
    | .complete stop => stop = offset + Text.byteLength cs ∧ brokenOfChars offset cs = []
    | .broken fault text lexeme start =>
      ∃ more, brokenOfChars offset cs = ⟨fault, text, lexeme, start⟩ :: more ∧
        ∀ b ∈ more, start ≤ b.start := by
  induction offset, cs using stepwise with
  | ended offset gap _ hend => simp [ofChars_ended offset hend, brokenOfChars_ended offset hend]
  | token offset gap c text rest t hstep hs ih =>
    rw [ofChars_token offset hstep hs, brokenOfChars_token offset hstep hs]
    simp only [cons]
    split at ih
    · exact ⟨by rw [ih.1]; simp [Nat.add_assoc], ih.2⟩
    · exact ih
  | broken offset gap c text rest fault lexeme hstep hs _ =>
    rw [ofChars_broken offset hstep hs, brokenOfChars_broken offset hstep hs]
    refine ⟨_, rfl, fun b hb => ?_⟩
    obtain ⟨before, _, _, _, _, -, -, hstart⟩ := exists_of_mem_brokenOfChars hb
    rw [hstart]
    simp only
    omega

/-- A broken token of a source, with the text before it and the text from there on. -/
theorem exists_of_mem_brokenOfText {source : String} {b : BrokenToken}
    (h : b ∈ brokenOfText source) :
    ∃ before c tail rest, source.toList = before ++ c :: tail ∧
      c :: tail = b.text.toList ++ rest ∧
      Scan.token? c tail = .broken b.fault b.text.toList b.lexeme.toList ∧
      b.span = ⟨Text.byteLength before,
        Text.byteLength before + Text.byteLength b.text.toList⟩ := by
  obtain ⟨before, c, tail, text, lexeme, hsource, hs, hb⟩ := exists_of_mem_brokenOfChars h
  have htext : b.text.toList = text := by rw [hb, String.toList_ofList]
  have hlexeme : b.lexeme.toList = lexeme := by rw [hb, String.toList_ofList]
  have hstart : b.start = Text.byteLength before := by rw [hb, Nat.zero_add]
  obtain ⟨more, rest, hmore, hrest⟩ := Scan.exists_rest_of_broken hs
  refine ⟨before, c, tail, rest, hsource, ?_, ?_, ?_⟩
  · rw [htext, hmore, hrest, List.cons_append]
  · rw [htext, hlexeme, hs]
  · rw [BrokenToken.span, hstart]

theorem slice_of_mem_brokenOfText {source : String} {b : BrokenToken}
    (h : b ∈ brokenOfText source) : Text.slice b.span source.toList = b.text.toList := by
  obtain ⟨before, c, tail, rest, hsource, htext, -, hspan⟩ := exists_of_mem_brokenOfText h
  rw [hspan, hsource, htext, Text.slice_append]

/-- What a report shows of a broken token is told from the source and the place of the token. -/
theorem lexemeAt_of_mem_brokenOfText {source : String} {b : BrokenToken}
    (h : b ∈ brokenOfText source) :
    BrokenToken.lexemeAt source.toList b.span = b.lexeme.toList := by
  have hslice := slice_of_mem_brokenOfText h
  obtain ⟨before, c, tail, rest, hsource, htext, hs, hspan⟩ := exists_of_mem_brokenOfText h
  obtain ⟨more, -, hmore, -⟩ := Scan.exists_rest_of_broken hs
  have hdrop : Text.dropBytes b.span.stop source.toList = rest := by
    rw [hspan, hsource, htext, ← List.append_assoc, ← Text.byteLength_append,
      Text.dropBytes_byteLength_append]
  rw [BrokenToken.lexemeAt, hslice, hdrop, Scan.lexeme_of_broken hs htext, hmore]

/-- Why a token of a source is broken, told from the source and the place of the token, is the reason
for which reading failed. It is the one that the text from there on has, and no second look at the
token comes to a closing mark. -/
theorem classify_iff_explains {source : String} {b : BrokenToken} (h : b ∈ brokenOfText source) :
    Text.slice b.span source.toList = b.text.toList ∧
      Fault.recheck source.toList b.span = some b.fault ∧
      Fault.classify source.toList b.span = b.fault ∧
      ∀ fault, Fault.classify source.toList b.span = fault ↔
        fault.Explains (Text.dropBytes b.start source.toList) := by
  obtain ⟨before, c, tail, rest, hsource, -, hs, hspan⟩ := exists_of_mem_brokenOfText h
  obtain ⟨hexplains, hrecheck⟩ := Scan.explains_of_broken hs before
  rw [← hspan, ← hsource] at hrecheck
  have hclassify : Fault.classify source.toList b.span = b.fault := by
    rw [Fault.classify, hrecheck, Option.getD_some]
  have hdrop : Text.dropBytes b.start source.toList = c :: tail := by
    have hstart : b.start = Text.byteLength before := congrArg Span.start hspan
    rw [hstart, hsource, Text.dropBytes_byteLength_append]
  refine ⟨slice_of_mem_brokenOfText h, hrecheck, hclassify, fun fault => ?_⟩
  rw [hclassify, hdrop]
  constructor
  · rintro rfl
    exact hexplains
  · exact hexplains.unique

/-- A string that an unknown escape breaks, behind a sign without a number. Its broken token ends
before the escape. -/
theorem classify_iff_explains_unknownEscape :
    (⟨.invalidEscape, "\"a", "\"a", 1⟩ : BrokenToken) ∈ brokenOfText "-\"a\\q" ∧
      Text.slice ⟨1, 3⟩ "-\"a\\q".toList = "\"a".toList ∧
      Fault.recheck "-\"a\\q".toList ⟨1, 3⟩ = some .invalidEscape ∧
      Fault.classify "-\"a\\q".toList ⟨1, 3⟩ = .invalidEscape ∧
      ∀ fault, Fault.classify "-\"a\\q".toList ⟨1, 3⟩ = fault ↔
        fault.Explains (Text.dropBytes 1 "-\"a\\q".toList) :=
  have hmem : (⟨.invalidEscape, "\"a", "\"a", 1⟩ : BrokenToken) ∈ brokenOfText "-\"a\\q" := by
    decide +kernel
  ⟨hmem, classify_iff_explains hmem⟩

end TokenStream

end GraphQLText
