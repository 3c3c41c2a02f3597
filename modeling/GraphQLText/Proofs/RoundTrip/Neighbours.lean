import GraphQLText.Proofs.RoundTrip.Document

/-!
# Which documents come back from their text

Whether a document comes back from its text is decided by its neighbours alone: it does unless
somewhere a query that is written as its selections stands right behind a definition that may still
take a body. What the selections of the query are does not matter.
-/

namespace GraphQLText

set_option autoImplicit false

/-- Definitions may follow one another if nowhere in the list the one of a pair is open and the
other is written as its selections alone. -/
theorem Definition.isChain_mayPrecede_iff (ds : List Definition) :
    ds.IsChain MayPrecede ↔
      ¬ ∃ i a b, ds[i]? = some a ∧ ds[i + 1]? = some b ∧ a.isOpen = true ∧
        b.isShorthand = true := by
  rw [List.isChain_iff_getElem]
  constructor
  · rintro h ⟨i, a, b, ha, hb, hopen, hshort⟩
    obtain ⟨hi, rfl⟩ := List.getElem?_eq_some_iff.mp hb
    obtain ⟨_, rfl⟩ := List.getElem?_eq_some_iff.mp ha
    have hlong := h i hi hopen
    rw [hshort] at hlong
    exact absurd hlong (by simp)
  · intro h i hi hopen
    by_contra hshort
    have ha : ds[i]? = some ds[i] := List.getElem?_eq_getElem (by omega)
    have hb : ds[i + 1]? = some ds[i + 1] := List.getElem?_eq_getElem hi
    exact h ⟨i, _, _, ha, hb, hopen, by simpa using hshort⟩

namespace Document

/-- A document that was read comes back from its text unless somewhere a definition that may still
take a body in braces is directly followed by a query that is written as its selections alone. -/
theorem parse_print_same_iff {source : String} {d : Document} (h : parse source = .ok d) :
    (∃ b, parse d.print = .ok b ∧ sameShape b d = true) ↔
      ¬ ∃ i a b, d.definitions[i]? = some a ∧ d.definitions[i + 1]? = some b ∧
        a.isOpen = true ∧ b.isShorthand = true := by
  have hd := wellFormed_of_parse h
  rw [← Definition.isChain_mayPrecede_iff]
  constructor
  · rintro ⟨b, hb, hsame⟩
    exact isChain_of_parse_print hd hb (sameShape_iff.mp hsame)
  · intro hchain
    obtain ⟨b, hb, hshape, -⟩ := parse_layout_of_isChain hd hchain 0
    exact ⟨b, hb, sameShape_iff.mpr hshape⟩

/-- Behind the extension of a schema a query is lost, and behind a type with fields it is not. -/
def schemaThenQuery : String :=
  "type A {b: C} {d} extend schema @e query {f}"

theorem parse_print_same_iff_schemaThenQuery :
    ∃ d, parse schemaThenQuery = .ok d ∧
      ((∃ b, parse d.print = .ok b ∧ sameShape b d = true) ↔
        ¬ ∃ i a b, d.definitions[i]? = some a ∧ d.definitions[i + 1]? = some b ∧
          a.isOpen = true ∧ b.isShorthand = true) := by
  have hread : (parse schemaThenQuery).toOption.isSome = true := by cbv
  cases h : parse schemaThenQuery with
  | error e => simp [h, Except.toOption] at hread
  | ok d => exact ⟨d, rfl, parse_print_same_iff h⟩

end Document

end GraphQLText
