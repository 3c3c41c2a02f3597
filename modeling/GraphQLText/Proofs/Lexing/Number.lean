import GraphQLText.Token.Number

/-!
# The form of numbers

The texts that are numbers, given by the form of their parts. Reading takes a number whole before
anything that a number must not run into, and whatever it takes is a number.
-/

namespace GraphQLText.Text

set_option autoImplicit false

theorem takeWhile_append_stop {p : Char → Bool} {xs rest : List Char} (h : ∀ c ∈ xs, p c = true)
    (hr : ∀ c ∈ rest.head?, p c = false) : (xs ++ rest).takeWhile p = xs := by
  rw [List.takeWhile_append_of_pos h]
  cases rest with
  | nil => simp
  | cons c rest => simp [hr c rfl]

theorem dropWhile_append_stop {p : Char → Bool} {xs rest : List Char} (h : ∀ c ∈ xs, p c = true)
    (hr : ∀ c ∈ rest.head?, p c = false) : (xs ++ rest).dropWhile p = rest := by
  rw [List.dropWhile_append_of_pos h]
  cases rest with
  | nil => simp
  | cons c rest => simp [hr c rfl]

end GraphQLText.Text

namespace GraphQLText.Number

set_option autoImplicit false

open Text (takeWhile_append_stop dropWhile_append_stop)

def AllDigits (ds : List Char) : Prop :=
  ∀ d ∈ ds, d.isDigit = true

theorem AllDigits.cons {d : Char} {ds : List Char} (hds : AllDigits ds) (hd : d.isDigit = true) :
    AllDigits (d :: ds) := by
  intro c hc
  rcases List.mem_cons.mp hc with rfl | hc
  · exact hd
  · exact hds c hc

theorem AllDigits.takeWhile_append {ds : List Char} (h : AllDigits ds) (rest : List Char) :
    (ds ++ rest).takeWhile Char.isDigit = ds ++ rest.takeWhile Char.isDigit :=
  List.takeWhile_append_of_pos h

/-- A single zero, or digits that begin with another one. -/
inductive IsNatural : List Char → Prop
  | zero : IsNatural ['0']
  | digits {d : Char} {ds : List Char} :
      d.isDigit = true → d ≠ '0' → AllDigits ds → IsNatural (d :: ds)

inductive IsWhole : List Char → Prop
  | plain {ds : List Char} : IsNatural ds → IsWhole ds
  | negative {ds : List Char} : IsNatural ds → IsWhole ('-' :: ds)

inductive IsFraction : List Char → Prop
  | intro {d : Char} {ds : List Char} :
      d.isDigit = true → AllDigits ds → IsFraction ('.' :: d :: ds)

def IsSign (s : List Char) : Prop :=
  s = [] ∨ s = ['+'] ∨ s = ['-']

inductive IsExponent : List Char → Prop
  | intro {e d : Char} {s ds : List Char} :
      e = 'e' ∨ e = 'E' → IsSign s → d.isDigit = true → AllDigits ds →
        IsExponent (e :: s ++ d :: ds)

/-- A whole number with a fraction or an exponent or both. -/
inductive IsFloat : List Char → Prop
  | intro {w f e : List Char} :
      IsWhole w → f = [] ∨ IsFraction f → e = [] ∨ IsExponent e → f ≠ [] ∨ e ≠ [] →
        IsFloat (w ++ f ++ e)

theorem natural_of_isNatural {ds rest : List Char} (h : IsNatural ds)
    (hr : ∀ c ∈ rest.head?, c.isDigit = false) : natural (ds ++ rest) = some (ds, rest) := by
  cases h with
  | zero => rfl
  | digits hd hz hds =>
    simp [natural, hz, hd, takeWhile_append_stop hds hr, dropWhile_append_stop hds hr]

theorem whole_of_isWhole {ds rest : List Char} (h : IsWhole ds)
    (hr : ∀ c ∈ rest.head?, c.isDigit = false) : whole (ds ++ rest) = some (ds, rest) := by
  cases h with
  | negative h => simp [whole, natural_of_isNatural h hr]
  | plain h =>
    have hn := natural_of_isNatural h hr
    cases h with
    | zero => exact hn
    | digits hd hz hds =>
      rw [whole]
      · exact hn
      · intro cs he
        simp only [List.cons_append, List.cons.injEq] at he
        rw [he.1] at hd
        exact absurd hd (by decide)

theorem fraction_of_isFraction {f rest : List Char} (h : IsFraction f)
    (hr : ∀ c ∈ rest.head?, c.isDigit = false) : fraction (f ++ rest) = (f, rest) := by
  cases h with
  | intro hd hds =>
    have ht := takeWhile_append_stop (hds.cons hd) hr
    have hw := dropWhile_append_stop (hds.cons hd) hr
    simp only [List.cons_append] at ht hw ⊢
    simp only [fraction, ht, hw]

theorem fraction_of_not_point {rest : List Char} (hr : ∀ c ∈ rest.head?, c ≠ '.') :
    fraction rest = ([], rest) := by
  cases rest with
  | nil => rfl
  | cons c rest =>
    have hc := hr c rfl
    rw [fraction]
    intro cs he
    exact hc (List.cons.inj he).1

theorem exponentSign_of_isSign {s : List Char} {d : Char} (hs : IsSign s) (hd : d.isDigit = true)
    (rest : List Char) : exponentSign (s ++ d :: rest) = (s, d :: rest) := by
  rcases hs with rfl | rfl | rfl
  · rw [List.nil_append, exponentSign]
    · intro cs he
      rw [(List.cons.inj he).1] at hd
      exact absurd hd (by decide)
    · intro cs he
      rw [(List.cons.inj he).1] at hd
      exact absurd hd (by decide)
  · rfl
  · rfl

theorem exponent_of_isExponent {e rest : List Char} (h : IsExponent e)
    (hr : ∀ c ∈ rest.head?, c.isDigit = false) : exponent (e ++ rest) = (e, rest) := by
  cases h with
  | intro he hs hd hds =>
    have ht := takeWhile_append_stop (hds.cons hd) hr
    have hw := dropWhile_append_stop (hds.cons hd) hr
    simp only [List.cons_append] at ht hw
    simp only [List.cons_append, List.append_assoc, exponent, if_pos he,
      exponentSign_of_isSign hs hd, ht, hw]

theorem exponent_of_not_letter {rest : List Char} (hr : ∀ c ∈ rest.head?, c ≠ 'e' ∧ c ≠ 'E') :
    exponent rest = ([], rest) := by
  cases rest with
  | nil => rfl
  | cons c rest =>
    have hc := hr c rfl
    rw [exponent, if_neg (by simp [hc.1, hc.2])]

theorem head?_of_isFraction {f : List Char} (h : IsFraction f) : f.head? = some '.' := by
  cases h
  rfl

theorem head?_of_isExponent {e : List Char} (h : IsExponent e) :
    e.head? = some 'e' ∨ e.head? = some 'E' := by
  cases h with
  | intro he hs hd hds => rcases he with rfl | rfl <;> simp

theorem head?_append_of_isFraction {f : List Char} (h : IsFraction f) (rest : List Char) :
    ∀ c ∈ (f ++ rest).head?, c.isDigit = false := by
  intro c hc
  rw [List.head?_append, head?_of_isFraction h] at hc
  cases hc
  decide

theorem head?_append_of_isExponent {e : List Char} (h : IsExponent e) (rest : List Char) :
    ∀ c ∈ (e ++ rest).head?, c ≠ '.' ∧ c.isDigit = false := by
  intro c hc
  rw [List.head?_append] at hc
  rcases head?_of_isExponent h with hletter | hletter
  all_goals
    rw [hletter] at hc
    cases hc
    decide

theorem isTail_eq_false {c : Char} (h : isTail c = false) :
    c ≠ '.' ∧ c ≠ 'e' ∧ c ≠ 'E' ∧ c.isDigit = false := by
  refine ⟨?_, ?_, ?_, ?_⟩
  · rintro rfl; exact absurd h (by decide)
  · rintro rfl; exact absurd h (by decide)
  · rintro rfl; exact absurd h (by decide)
  · simp only [isTail, Char.isAlphanum, Bool.or_eq_false_iff] at h
    exact h.2.2

theorem head?_of_mayEndBefore {rest : List Char} (h : mayEndBefore rest = true) :
    ∀ c ∈ rest.head?, isTail c = false := by
  cases rest with
  | nil => simp
  | cons c rest => simpa [mayEndBefore] using h

/-- A number is taken whole where it may end. -/
theorem longest?_of_form {w f e rest : List Char} (hw : IsWhole w) (hf : f = [] ∨ IsFraction f)
    (he : e = [] ∨ IsExponent e) (hr : mayEndBefore rest = true) :
    longest? (w ++ f ++ e ++ rest) =
      some ⟨w ++ f ++ e, !(f.isEmpty && e.isEmpty), rest⟩ := by
  have hrest := head?_of_mayEndBefore hr
  have hexp : exponent (e ++ rest) = (e, rest) := by
    rcases he with rfl | he
    · exact exponent_of_not_letter fun c hc =>
        ⟨(isTail_eq_false (hrest c hc)).2.1, (isTail_eq_false (hrest c hc)).2.2.1⟩
    · exact exponent_of_isExponent he fun c hc => (isTail_eq_false (hrest c hc)).2.2.2
  have hpower : ∀ c ∈ (e ++ rest).head?, c ≠ '.' ∧ c.isDigit = false := by
    intro c hc
    rcases he with rfl | he
    · exact ⟨(isTail_eq_false (hrest c hc)).1, (isTail_eq_false (hrest c hc)).2.2.2⟩
    · exact head?_append_of_isExponent he rest c hc
  have hfrac : fraction (f ++ (e ++ rest)) = (f, e ++ rest) := by
    rcases hf with rfl | hf
    · exact fraction_of_not_point fun c hc => (hpower c hc).1
    · exact fraction_of_isFraction hf fun c hc => (hpower c hc).2
  have hpoint : ∀ c ∈ (f ++ (e ++ rest)).head?, c.isDigit = false := by
    intro c hc
    rcases hf with rfl | hf
    · exact (hpower c hc).2
    · exact head?_append_of_isFraction hf _ c hc
  rw [longest?, List.append_assoc, List.append_assoc, whole_of_isWhole hw hpoint]
  simp only [Option.map_some, hfrac, hexp, List.append_assoc]

theorem allDigits_takeWhile (cs : List Char) : AllDigits (cs.takeWhile Char.isDigit) := by
  intro d hd
  exact (List.all_eq_true.mp List.all_takeWhile) d hd

theorem isNatural_of_natural {cs ds rest : List Char} (h : natural cs = some (ds, rest)) :
    IsNatural ds := by
  cases cs with
  | nil => simp [natural] at h
  | cons c cs =>
    simp only [natural] at h
    split at h
    · next hc =>
      simp only [Option.some.injEq, Prod.mk.injEq] at h
      rw [← h.1, hc]
      exact .zero
    · next hc =>
      split at h
      · next hd =>
        simp only [Option.some.injEq, Prod.mk.injEq] at h
        rw [← h.1]
        exact .digits hd hc (allDigits_takeWhile cs)
      · simp at h

theorem isWhole_of_whole {cs ds rest : List Char} (h : whole cs = some (ds, rest)) :
    IsWhole ds := by
  unfold whole at h
  split at h
  · simp only [Option.map_eq_some_iff, Prod.mk.injEq, Prod.exists] at h
    obtain ⟨d, r, hd, rfl, rfl⟩ := h
    exact .negative (isNatural_of_natural hd)
  · exact .plain (isNatural_of_natural h)

theorem allDigits_of_takeWhile {cs ds : List Char} {d : Char}
    (h : cs.takeWhile Char.isDigit = d :: ds) : d.isDigit = true ∧ AllDigits ds := by
  have hall := allDigits_takeWhile cs
  rw [h] at hall
  exact ⟨hall d (by simp), fun c hc => hall c (by simp [hc])⟩

theorem form_of_fraction (cs : List Char) : (fraction cs).1 = [] ∨ IsFraction (fraction cs).1 := by
  unfold fraction
  split
  · next cs =>
    split
    · exact .inl rfl
    · next ds hne =>
      cases hds : cs.takeWhile Char.isDigit with
      | nil => exact absurd hds hne
      | cons d ds =>
        obtain ⟨hd, hall⟩ := allDigits_of_takeWhile hds
        exact .inr (.intro hd hall)
  · exact .inl rfl

theorem isSign_exponentSign (cs : List Char) : IsSign (exponentSign cs).1 := by
  unfold exponentSign IsSign
  split <;> simp

theorem form_of_exponent (cs : List Char) : (exponent cs).1 = [] ∨ IsExponent (exponent cs).1 := by
  cases cs with
  | nil => exact .inl rfl
  | cons c cs =>
    simp only [exponent]
    split
    · next hc =>
      split
      · exact .inl rfl
      · next ds hne =>
        cases hds : (exponentSign cs).2.takeWhile Char.isDigit with
        | nil => exact absurd hds hne
        | cons d ds =>
          obtain ⟨hd, hall⟩ := allDigits_of_takeWhile hds
          exact .inr (.intro hc (isSign_exponentSign cs) hd hall)
    · exact .inl rfl

/-- What is taken is a whole number, or else one with further parts. -/
theorem form_of_longest? {cs : List Char} {n : Longest} (h : longest? cs = some n) :
    if n.isFloat then IsFloat n.text else IsWhole n.text := by
  simp only [longest?, Option.map_eq_some_iff, Prod.exists] at h
  obtain ⟨w, rest, hw, rfl⟩ := h
  have hf := form_of_fraction rest
  have he := form_of_exponent (fraction rest).2
  have hwhole := isWhole_of_whole hw
  by_cases hnil : (fraction rest).1 = [] ∧ (exponent (fraction rest).2).1 = []
  · simpa [hnil.1, hnil.2] using hwhole
  · have hne : (fraction rest).1 ≠ [] ∨ (exponent (fraction rest).2).1 ≠ [] := by
      by_cases hfn : (fraction rest).1 = []
      · exact .inr fun hen => hnil ⟨hfn, hen⟩
      · exact .inl hfn
    have hflag : (!((fraction rest).1.isEmpty && (exponent (fraction rest).2).1.isEmpty)) = true := by
      rcases hne with hne | hne <;> simp [hne]
    simp only [hflag, if_true]
    exact .intro hwhole hf he hne

end GraphQLText.Number
