/-!
# Numbers

A number is a whole part, then perhaps a fraction, then perhaps an exponent. Each part is taken
only if all of it is there, so that the longest number is read. A number must not run into a
further digit, point or name.
-/

namespace GraphQLText.Number

set_option autoImplicit false

/-- A whole part without its sign: a single zero, or digits that begin with another one. -/
def natural : List Char → Option (List Char × List Char)
  | [] => none
  | c :: cs =>
    if c = '0' then some ([c], cs)
    else if c.isDigit then some (c :: cs.takeWhile Char.isDigit, cs.dropWhile Char.isDigit)
    else none

def whole : List Char → Option (List Char × List Char)
  | '-' :: cs => (natural cs).map fun (digits, rest) => ('-' :: digits, rest)
  | cs => natural cs

/-- The fraction at the head of a text, which is empty when there is none. -/
def fraction : List Char → List Char × List Char
  | '.' :: cs =>
    match cs.takeWhile Char.isDigit with
    | [] => ([], '.' :: cs)
    | digits => ('.' :: digits, cs.dropWhile Char.isDigit)
  | cs => ([], cs)

def exponentSign : List Char → List Char × List Char
  | '+' :: cs => (['+'], cs)
  | '-' :: cs => (['-'], cs)
  | cs => ([], cs)

def exponent : List Char → List Char × List Char
  | [] => ([], [])
  | c :: cs =>
    if c = 'e' ∨ c = 'E' then
      let (sign, rest) := exponentSign cs
      match rest.takeWhile Char.isDigit with
      | [] => ([], c :: cs)
      | digits => (c :: sign ++ digits, rest.dropWhile Char.isDigit)
    else
      ([], c :: cs)

structure Longest where
  text : List Char
  /-- Whether it has a fraction or an exponent. -/
  isFloat : Bool
  rest : List Char
deriving DecidableEq, Repr

def longest? (cs : List Char) : Option Longest :=
  (whole cs).map fun (digits, afterWhole) =>
    let (point, afterFraction) := fraction afterWhole
    let (power, rest) := exponent afterFraction
    { text := digits ++ point ++ power
      isFloat := !(point.isEmpty && power.isEmpty)
      rest }

/-- The characters that a number must not run into. -/
def isTail (c : Char) : Bool :=
  c == '.' || c == '_' || c.isAlphanum

def mayEndBefore : List Char → Bool
  | [] => true
  | c :: _ => !isTail c

theorem natural_append {cs digits rest : List Char} (h : natural cs = some (digits, rest)) :
    digits ++ rest = cs := by
  cases cs with
  | nil => simp [natural] at h
  | cons c cs =>
    simp only [natural] at h
    split at h
    · simp only [Option.some.injEq, Prod.mk.injEq] at h
      obtain ⟨rfl, rfl⟩ := h
      rfl
    · split at h
      · simp only [Option.some.injEq, Prod.mk.injEq] at h
        obtain ⟨rfl, rfl⟩ := h
        simp
      · simp at h

theorem whole_append {cs digits rest : List Char} (h : whole cs = some (digits, rest)) :
    digits ++ rest = cs := by
  unfold whole at h
  split at h
  · simp only [Option.map_eq_some_iff, Prod.mk.injEq, Prod.exists] at h
    obtain ⟨d, r, hd, rfl, rfl⟩ := h
    simp [natural_append hd]
  · exact natural_append h

theorem fraction_append (cs : List Char) : (fraction cs).1 ++ (fraction cs).2 = cs := by
  unfold fraction
  split
  · next cs =>
    split
    · rfl
    · simp
  · rfl

theorem exponentSign_append (cs : List Char) :
    (exponentSign cs).1 ++ (exponentSign cs).2 = cs := by
  unfold exponentSign
  split <;> rfl

theorem exponent_append (cs : List Char) : (exponent cs).1 ++ (exponent cs).2 = cs := by
  cases cs with
  | nil => rfl
  | cons c cs =>
    have hs := exponentSign_append cs
    simp only [exponent]
    split
    · split
      · rfl
      · simpa using hs
    · rfl

theorem longest?_append {cs : List Char} {n : Longest} (h : longest? cs = some n) :
    n.text ++ n.rest = cs := by
  simp only [longest?, Option.map_eq_some_iff, Prod.exists] at h
  obtain ⟨digits, rest, hw, rfl⟩ := h
  simp only [List.append_assoc, exponent_append, fraction_append]
  exact whole_append hw

theorem natural_ne_nil {cs digits rest : List Char} (h : natural cs = some (digits, rest)) :
    digits ≠ [] := by
  cases cs with
  | nil => simp [natural] at h
  | cons c cs =>
    simp only [natural] at h
    split at h
    · simp only [Option.some.injEq, Prod.mk.injEq] at h
      simp [← h.1]
    · split at h
      · simp only [Option.some.injEq, Prod.mk.injEq] at h
        simp [← h.1]
      · simp at h

theorem whole_ne_nil {cs digits rest : List Char} (h : whole cs = some (digits, rest)) :
    digits ≠ [] := by
  unfold whole at h
  split at h
  · simp only [Option.map_eq_some_iff, Prod.mk.injEq, Prod.exists] at h
    obtain ⟨d, r, _, rfl, _⟩ := h
    simp
  · exact natural_ne_nil h

theorem longest?_length_lt {cs : List Char} {n : Longest} (h : longest? cs = some n) :
    n.rest.length < cs.length := by
  have hcs := longest?_append h
  simp only [longest?, Option.map_eq_some_iff, Prod.exists] at h
  obtain ⟨digits, rest, hw, rfl⟩ := h
  have hd := List.length_pos_iff.mpr (whole_ne_nil hw)
  have := congrArg List.length hcs
  simp only [List.length_append] at this ⊢
  omega

/-- A number begins with the character that it was told from. -/
theorem exists_text_of_longest? {c : Char} {cs : List Char} {n : Longest}
    (h : longest? (c :: cs) = some n) : ∃ more, n.text = c :: more ∧ more ++ n.rest = cs := by
  have happ := longest?_append h
  cases hn : n.text with
  | nil =>
    have hlt := longest?_length_lt h
    rw [hn, List.nil_append] at happ
    rw [happ] at hlt
    exact absurd hlt (Nat.lt_irrefl _)
  | cons d more =>
    rw [hn, List.cons_append, List.cons.injEq] at happ
    exact ⟨more, by rw [happ.1], happ.2⟩

end GraphQLText.Number
