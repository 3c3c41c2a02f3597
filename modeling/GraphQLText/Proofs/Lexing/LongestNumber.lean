import GraphQLText.Proofs.Lexing.Broken

/-!
# Numbers are taken whole

Of all numbers that a text begins with, reading takes the longest one, or none if it runs into a point,
a letter, a digit or an underscore. So no number of a source touches a name, a run of points or another
number without a sign, and a broken number is shown with all that it runs into.
-/

namespace GraphQLText

set_option autoImplicit false

namespace Number

def IsNumber (x : List Char) : Prop :=
  IsWhole x ∨ IsFloat x

/-- The number is the longest one that the text begins with. -/
structure IsLongest (x cs : List Char) : Prop where
  number : IsNumber x
  begins : x <+: cs
  longest : ∀ y, y <+: cs → IsNumber y → y.length ≤ x.length

theorem IsNumber.parts {x : List Char} (h : IsNumber x) :
    ∃ w f e, x = w ++ (f ++ e) ∧ IsWhole w ∧ (f = [] ∨ IsFraction f) ∧ (e = [] ∨ IsExponent e) := by
  rcases h with hw | ⟨hw, hf, he, -⟩
  · exact ⟨x, [], [], by simp, hw, .inl rfl, .inl rfl⟩
  · exact ⟨_, _, _, List.append_assoc .., hw, hf, he⟩

theorem length_le_natural {ds : List Char} (h : IsNatural ds) (rest : List Char) :
    ∃ digits behind, natural (ds ++ rest) = some (digits, behind) ∧ ds.length ≤ digits.length := by
  cases h with
  | zero => exact ⟨['0'], rest, rfl, Nat.le_refl _⟩
  | @digits d ds hd hz hds =>
    refine ⟨d :: (ds ++ rest).takeWhile Char.isDigit, (ds ++ rest).dropWhile Char.isDigit, ?_, ?_⟩
    · rw [List.cons_append, natural, if_neg hz, if_pos hd]
    · rw [hds.takeWhile_append, List.length_cons, List.length_cons, List.length_append]
      omega

theorem length_le_whole {w : List Char} (h : IsWhole w) (rest : List Char) :
    ∃ digits behind, whole (w ++ rest) = some (digits, behind) ∧ w.length ≤ digits.length := by
  cases h with
  | plain hn =>
    obtain ⟨digits, behind, hread, hlen⟩ := length_le_natural hn rest
    refine ⟨digits, behind, ?_, hlen⟩
    rw [whole]
    · exact hread
    · intro cs hcs
      rw [hcs] at hread
      cases hread
  | @negative ds hn =>
    obtain ⟨digits, behind, hread, hlen⟩ := length_le_natural hn rest
    refine ⟨'-' :: digits, behind, ?_, Nat.succ_le_succ hlen⟩
    rw [List.cons_append, whole, hread]
    rfl

theorem length_le_fraction {f : List Char} (h : IsFraction f) (rest : List Char) :
    f.length ≤ (fraction (f ++ rest)).1.length := by
  cases h with
  | intro hd hds =>
    have htake := (hds.cons hd).takeWhile_append rest
    simp only [List.cons_append] at htake
    simp only [List.cons_append, fraction, htake, List.length_cons, List.length_append]
    omega

theorem length_le_exponent {e : List Char} (h : IsExponent e) (rest : List Char) :
    e.length ≤ (exponent (e ++ rest)).1.length := by
  cases h with
  | intro he hs hd hds =>
    have htake := (hds.cons hd).takeWhile_append rest
    simp only [List.cons_append] at htake
    simp only [List.cons_append, List.append_assoc, exponent, if_pos he, exponentSign_of_isSign hs hd,
      htake, List.length_cons, List.length_append]
    omega

/-- The parts behind the whole one are not cut short either. -/
theorem length_le_parts {f e : List Char} (hf : f = [] ∨ IsFraction f) (he : e = [] ∨ IsExponent e)
    (rest : List Char) :
    f.length + e.length ≤ (fraction (f ++ (e ++ rest))).1.length +
      (exponent (fraction (f ++ (e ++ rest))).2).1.length := by
  have hexponent : e.length ≤ (exponent (e ++ rest)).1.length := by
    rcases he with rfl | he
    · exact Nat.zero_le _
    · exact length_le_exponent he rest
  rcases hf with rfl | hf
  · rcases he with rfl | he
    · exact Nat.zero_le _
    · have hpoint := fun c hc => (head?_append_of_isExponent he rest c hc).1
      rw [List.nil_append, fraction_of_not_point hpoint, List.length_nil, Nat.zero_add, Nat.zero_add]
      exact hexponent
  · by_cases hstop : ∀ c ∈ (e ++ rest).head?, c.isDigit = false
    · rw [fraction_of_isFraction hf hstop]
      exact Nat.add_le_add_left hexponent _
    · -- the fraction goes on with a digit, so that there is no exponent
      obtain rfl := he.resolve_right fun he =>
        hstop fun c hc => (head?_append_of_isExponent he rest c hc).2
      have hfraction := length_le_fraction hf ([] ++ rest)
      rw [List.length_nil]
      omega

/-- Whatever number a text begins with, the one that is taken is no shorter. -/
theorem length_le_longest? {y : List Char} (h : IsNumber y) (rest : List Char) :
    ∃ n, longest? (y ++ rest) = some n ∧ y.length ≤ n.text.length := by
  obtain ⟨w, f, e, rfl, hw, hf, he⟩ := h.parts
  have hassoc : w ++ (f ++ e) ++ rest = w ++ (f ++ (e ++ rest)) := by simp
  rw [hassoc]
  by_cases hstop : ∀ c ∈ (f ++ (e ++ rest)).head?, c.isDigit = false
  · have hparts := length_le_parts hf he rest
    refine ⟨_, by rw [longest?, whole_of_isWhole hw hstop]; rfl, ?_⟩
    simp only [List.length_append]
    omega
  · -- the whole part goes on with a digit, so that there is no other part
    obtain rfl := hf.resolve_right fun hf => hstop (head?_append_of_isFraction hf _)
    obtain rfl := he.resolve_right fun he =>
      hstop fun c hc => (head?_append_of_isExponent he rest c hc).2
    obtain ⟨digits, behind, hread, hlen⟩ := length_le_whole hw ([] ++ ([] ++ rest))
    refine ⟨_, by rw [longest?, hread]; rfl, ?_⟩
    simp only [List.length_append, List.length_nil]
    omega

theorem isLongest_of_longest? {cs : List Char} {n : Longest} (h : longest? cs = some n) :
    IsLongest n.text cs where
  number := by
    have hform := form_of_longest? h
    split at hform
    · exact .inr hform
    · exact .inl hform
  begins := ⟨n.rest, longest?_append h⟩
  longest := by
    rintro y ⟨rest, rfl⟩ hy
    obtain ⟨m, hm, hlen⟩ := length_le_longest? hy rest
    rw [h] at hm
    cases hm
    exact hlen

/-- There is just one longest number, the one that is taken. -/
theorem exists_longest? {x cs : List Char} (h : IsLongest x cs) :
    ∃ n, longest? cs = some n ∧ n.text = x ∧ cs = x ++ n.rest := by
  obtain ⟨rest, rfl⟩ := h.begins
  obtain ⟨n, hn, hlen⟩ := length_le_longest? h.number rest
  have hlongest := isLongest_of_longest? hn
  have hle := h.longest n.text hlongest.begins hlongest.number
  have hprefix := List.prefix_of_prefix_length_le hlongest.begins h.begins hle
  have htext := hprefix.eq_of_length (Nat.le_antisymm hle hlen)
  have happ := longest?_append hn
  rw [htext] at happ
  exact ⟨n, hn, htext, happ.symm⟩

end Number

theorem Lead.ofChar_ne_ellipsis (c : Char) : ofChar c ≠ .punctuator .ellipsis := by
  intro h
  unfold ofChar at h
  split at h
  · next p hp =>
    cases h
    have htext := Punctuator.text_of_ofChar? hp
    cases htext
  · repeat' split at h
    all_goals cases h

namespace Token

def isNumber : Token → Bool
  | int _ | float _ => true
  | _ => false

/-- What the first character of the token tells. -/
def lead : Token → Lead
  | punctuator .ellipsis => .point
  | punctuator p => .punctuator p
  | name _ => .name
  | int _ | float _ => .number
  | string _ | blockString _ => .mark

theorem lead_of_isNumber {t : Token} (h : t.isNumber = true) : t.lead = .number := by
  cases t with
  | int | float => rfl
  | _ => cases h

end Token

/-- What becomes of a number, or of a sign without one, that the second part of a source begins with.
It is a token if it may end where the longest number ends, and else it is broken and shown with all
that it runs into. -/
inductive Lexeme.TakesNumber (before ahead : List Char) : Lexeme → Prop
  | whole {x rest : List Char} {t : Token} : Number.IsLongest x ahead → ahead = x ++ rest →
      (∀ d ∈ rest.head?, Number.isTail d = false) →
      t = .int (String.ofList x) ∧ Number.IsWhole x ∨ t = .float (String.ofList x) ∧ Number.IsFloat x →
        TakesNumber before ahead (.token ⟨t, String.ofList x, Text.byteLength before⟩)
  | broken {text run rest : List Char} :
      (∀ x behind, Number.IsLongest x ahead → ahead = x ++ behind →
        text = x ∧ ∃ d ∈ behind.head?, Number.isTail d = true) →
      ((∀ x, ¬ Number.IsLongest x ahead) → text = ahead.take 1) →
      ahead = text ++ (run ++ rest) → (∀ d ∈ run, Number.isTail d = true) →
      (∀ d ∈ rest.head?, Number.isTail d = false) →
        TakesNumber before ahead (.broken ⟨.invalidNumber, String.ofList text,
          String.ofList (text ++ run), Text.byteLength before⟩)

namespace Scan

theorem isNameChar_of_isNameStart {c : Char} (h : isNameStart c = true) : isNameChar c = true := by
  rw [isNameStart, Bool.or_eq_true] at h
  rw [isNameChar, Bool.or_eq_true]
  exact h.imp_right fun halpha => by rw [Char.isAlphanum, halpha, Bool.true_or]

theorem token_of_number {c : Char} {cs rest : List Char} {t : Token}
    (h : number c cs = .token t rest) :
    ∃ x, Number.IsLongest x (c :: cs) ∧ c :: cs = x ++ rest ∧
      (∀ d ∈ rest.head?, Number.isTail d = false) ∧
      (t = .int (String.ofList x) ∧ Number.IsWhole x ∨
        t = .float (String.ofList x) ∧ Number.IsFloat x) := by
  unfold number at h
  split at h
  · next n hn =>
    split at h
    · next hend =>
      simp only [token.injEq] at h
      obtain ⟨rfl, rfl⟩ := h
      refine ⟨n.text, Number.isLongest_of_longest? hn, (Number.longest?_append hn).symm,
        Number.head?_of_mayEndBefore hend, ?_⟩
      have hform := Number.form_of_longest? hn
      split at hform
      · next hfloat => exact .inr ⟨if_pos hfloat, hform⟩
      · next hfloat => exact .inl ⟨if_neg hfloat, hform⟩
    · cases h
  · cases h

theorem broken_of_number {c : Char} {cs text lexeme : List Char} {f : Fault}
    (h : number c cs = .broken f text lexeme) :
    (∀ x behind, Number.IsLongest x (c :: cs) → c :: cs = x ++ behind →
        text = x ∧ ∃ d ∈ behind.head?, Number.isTail d = true) ∧
      ((∀ x, ¬ Number.IsLongest x (c :: cs)) → text = [c]) := by
  unfold number at h
  split at h
  · next n hn =>
    split at h
    · cases h
    · next hend =>
      simp only [broken.injEq] at h
      obtain ⟨-, rfl, -⟩ := h
      constructor
      · intro x behind hx hbehind
        obtain ⟨m, hm, rfl, hrest⟩ := Number.exists_longest? hx
        rw [hn] at hm
        obtain rfl := Option.some.inj hm
        obtain rfl := List.append_cancel_left (hbehind.symm.trans hrest)
        refine ⟨rfl, ?_⟩
        cases hb : n.rest with
        | nil => simp [hb, Number.mayEndBefore] at hend
        | cons d more => exact ⟨d, rfl, by simpa [hb, Number.mayEndBefore] using hend⟩
      · intro hnone
        exact absurd (Number.isLongest_of_longest? hn) (hnone _)
  · next hn =>
    simp only [broken.injEq] at h
    refine ⟨fun x behind hx _ => ?_, fun _ => h.2.1.symm⟩
    obtain ⟨m, hm, -⟩ := Number.exists_longest? hx
    rw [hn] at hm
    cases hm

theorem lead_of_token? {c : Char} {cs rest : List Char} {t : Token}
    (h : token? c cs = .token t rest) : Lead.ofChar c = t.lead := by
  unfold token? at h
  split at h
  · next p hlead =>
    simp only [token.injEq] at h
    rw [hlead, ← h.1]
    cases p with
    | ellipsis => exact absurd hlead (Lead.ofChar_ne_ellipsis c)
    | _ => rfl
  · next hlead =>
    unfold points at h
    split at h
    · simp only [token.injEq] at h
      rw [hlead, ← h.1]
      rfl
    · cases h
  · next hlead =>
    unfold string at h
    split at h
    all_goals
      split at h
      · simp only [token.injEq] at h
        rw [hlead, ← h.1]
        rfl
      · cases h
  · next hlead =>
    obtain ⟨x, -, -, -, ⟨rfl, -⟩ | ⟨rfl, -⟩⟩ := token_of_number h
    · exact hlead
    · exact hlead
  · next hlead =>
    simp only [name, token.injEq] at h
    rw [hlead, ← h.1]
    rfl
  · cases h

end Scan

/-- What begins with a digit or a sign is a number that is taken whole, or it is broken. -/
theorem Lexeme.takesNumber_of_mem {cs : List Char} {l : Lexeme}
    (h : l ∈ TokenStream.lexemesOfChars 0 cs) {before tail : List Char} {c : Char}
    (hcs : cs = before ++ c :: tail) (hstart : l.start = Text.byteLength before)
    (hc : c = '-' ∨ c.isDigit = true) : l.TakesNumber before (c :: tail) := by
  obtain ⟨before', d, text, rest, hcs', hfound⟩ := TokenStream.exists_of_mem_lexemesOfChars h
  rw [Nat.zero_add] at hfound
  have hlen : Text.byteLength before' = l.start := by
    rcases hfound with ⟨_, -, rfl⟩ | ⟨_, _, -, rfl⟩ <;> rfl
  obtain ⟨rfl, hahead⟩ :=
    Text.append_inj_of_byteLength (hcs'.symm.trans hcs) (hlen.trans hstart)
  obtain ⟨rfl, htail⟩ := List.cons.inj hahead
  obtain rfl : tail = text ++ rest := htail.symm
  have hlead := Lead.ofChar_eq_number_iff.mpr hc
  rcases hfound with ⟨t, hs, rfl⟩ | ⟨fault, lexeme, hs, rfl⟩
  · simp only [Scan.token?, hlead] at hs
    obtain ⟨x, hlongest, hx, hend, hkind⟩ := Scan.token_of_number hs
    obtain rfl : d :: text = x := List.append_cancel_right hx
    exact .whole hlongest hx hend hkind
  · simp only [Scan.token?, hlead] at hs
    obtain ⟨htext, hnone⟩ := Scan.broken_of_number hs
    obtain rfl := Scan.fault_of_number hs
    obtain rfl := Scan.lexeme_of_number hs (List.cons_append ..).symm
    have hrest := List.takeWhile_append_dropWhile (p := Number.isTail) (l := rest)
    refine .broken htext hnone (congrArg (d :: text ++ ·) hrest.symm) ?_ ?_
    · exact List.all_eq_true.mp List.all_takeWhile
    · intro e he
      have hnot := List.head?_dropWhile_not Number.isTail rest
      rwa [Option.mem_def.mp he] at hnot

namespace TokenStream

theorem head?_of_spells {text rest : List Char} {t : Token} (h : Scan.Spells text t rest) :
    ∃ c more, text = c :: more ∧ Lead.ofChar c = t.lead ∧
      (t.isNumber = true → ∀ d ∈ rest.head?, Number.isTail d = false) := by
  obtain ⟨c, more, rfl⟩ := List.exists_cons_of_ne_nil (ne_nil_of_spells h)
  obtain ⟨d, tail, heq, -, hs⟩ := h rest (.refl rest)
  obtain ⟨rfl, rfl⟩ := List.cons.inj heq
  have hlead := Scan.lead_of_token? hs
  refine ⟨c, more, rfl, hlead, fun hnumber => ?_⟩
  simp only [Scan.token?, hlead.trans (Token.lead_of_isNumber hnumber)] at hs
  obtain ⟨x, -, -, hend, -⟩ := Scan.token_of_number hs
  exact hend

/-- A number does not touch a name, a run of points or a number without a sign. -/
theorem lead_of_adjacent {cs : List Char} {left right : List PlacedToken} {u v : PlacedToken}
    (h : (ofChars 0 cs).tokens = left ++ u :: v :: right) (hu : u.token.isNumber = true)
    (hadjacent : u.span.stop = v.span.start) :
    v.token.lead ≠ .name ∧ v.token.lead ≠ .point ∧
      (v.token.lead = .number → v.text.toList.head? = some '-') := by
  obtain ⟨blank, text, rest, hcs, -, hspells, -, huspan⟩ := exists_of_tokens_eq_append h
  have hv : (ofChars 0 cs).tokens = (left ++ [u]) ++ v :: right := by rw [h]; simp
  obtain ⟨blank', text', rest', hcs', -, hspells', hv, hvspan⟩ := exists_of_tokens_eq_append hv
  rw [huspan, hvspan] at hadjacent
  rw [← List.append_assoc] at hcs
  obtain ⟨-, rfl⟩ := Text.append_inj_of_byteLength (hcs.symm.trans hcs') hadjacent
  obtain ⟨-, -, -, -, hend⟩ := head?_of_spells hspells
  obtain ⟨c, more, rfl, hlead, -⟩ := head?_of_spells hspells'
  have hc : Number.isTail c = false := hend hu c rfl
  rw [← hlead]
  refine ⟨?_, ?_, ?_⟩
  · intro hname
    have hstart := Scan.isNameChar_of_isNameStart (Lead.isNameStart_of_ofChar hname)
    rw [Scan.isNameChar_of_isTail hc] at hstart
    cases hstart
  · intro hpoint
    rw [Lead.eq_of_ofChar.1 hpoint] at hc
    exact absurd hc (by decide)
  · intro hnumber
    rcases Lead.ofChar_eq_number_iff.mp hnumber with rfl | hdigit
    · rw [hv, String.toList_ofList]
      rfl
    · rw [(Number.isTail_eq_false hc).2.2.2] at hdigit
      cases hdigit

/-- What begins with a digit or a sign is taken whole as a number, if there is one that does not run into
anything, and is broken otherwise. The lexemes of a source are its tokens and, where it breaks, what
comes behind them. A broken number is shown with all that it runs into, and no number touches a name, a
run of points or a number without a sign. -/
theorem numbers_whole_or_broken (source : String) :
    (∃ later, lexemesOfText source = (ofText source).tokens.map .token ++ later ∧
      ((ofText source).isComplete = true → later = [])) ∧
    (∀ l ∈ lexemesOfText source, ∀ before c tail, source.toList = before ++ c :: tail →
      l.start = Text.byteLength before → c = '-' ∨ c.isDigit = true →
        l.TakesNumber before (c :: tail)) ∧
    (∀ b, .broken b ∈ lexemesOfText source →
      BrokenToken.lexemeAt source.toList b.span = b.lexeme.toList) ∧
    ∀ left u v right, (ofText source).tokens = left ++ u :: v :: right → u.token.isNumber = true →
      u.span.stop = v.span.start → (∀ s, v.token ≠ .name s) ∧ v.token ≠ .punctuator .ellipsis ∧
        (v.token.isNumber = true → v.text.toList.head? = some '-') := by
  refine ⟨exists_lexemesOfChars_eq 0 source.toList, ?_, ?_, ?_⟩
  · intro l hl before c tail hsource hstart hc
    exact Lexeme.takesNumber_of_mem hl hsource hstart hc
  · intro b hb
    exact lexemeAt_of_mem_brokenOfText (mem_brokenOfChars_iff.mpr hb)
  · intro left u v right htokens hu hadjacent
    obtain ⟨hname, hpoint, hnumber⟩ := lead_of_adjacent htokens hu hadjacent
    refine ⟨?_, ?_, ?_⟩
    · intro s hs
      exact hname (by rw [hs]; rfl)
    · intro hellipsis
      exact hpoint (by rw [hellipsis]; rfl)
    · intro hv
      exact hnumber (Token.lead_of_isNumber hv)

example : lexemesOfText "0-1.5e a" =
    [.token ⟨.int "0", "0", 0⟩, .broken ⟨.invalidNumber, "-1.5", "-1.5e", 1⟩,
      .token ⟨.name "e", "e", 5⟩, .token ⟨.name "a", "a", 7⟩] := by
  cbv

end TokenStream

end GraphQLText
