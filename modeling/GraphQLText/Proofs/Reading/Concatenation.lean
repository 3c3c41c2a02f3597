import GraphQLText.Proofs.Lexing.Insert
import GraphQLText.Proofs.Reading.Source

/-!
# Documents one after the other

A document that is put on the lines behind another one keeps its definitions, and so does the other
one, unless it begins with a brace: the definition before might take that for its body.
-/

namespace GraphQLText

set_option autoImplicit false

theorem Definition.Apart.append {us vs : Phrase} {ds es : List Definition}
    (hu : Definition.Apart us ds) (hv : Definition.Apart vs es) (hbrace : ¬ vs.IsBraced) :
    Definition.Apart (us ++ vs) (ds ++ es) := by
  induction hu with
  | nil => exact hv
  | @cons u w d ds hd _ hopen ih =>
    rw [List.append_assoc, List.cons_append]
    refine .cons hd ih fun ho hbraced => ?_
    cases w with
    | nil => exact hbrace hbraced
    | cons x w => exact hopen ho hbraced

/-- Two documents, each on lines of its own, are read as one, unless the second one begins with a
brace. -/
theorem Document.parse_append_newline {source₁ source₂ : String} {d₁ d₂ : Document}
    (h₁ : parse source₁ = .ok d₁) (h₂ : parse source₂ = .ok d₂)
    (hfirst : (TokenStream.ofText source₂).kinds.head? ≠ some (.punctuator .openBrace)) :
    ∃ d, parse (source₁ ++ "\n" ++ source₂) = .ok d ∧
      bare d.definitions = bare (d₁.definitions ++ d₂.definitions) := by
  obtain ⟨hs₁, us, hus, hu⟩ := derivesApart_of_parse h₁
  obtain ⟨hs₂, vs, hvs, hv⟩ := derivesApart_of_parse h₂
  obtain ⟨hkinds, hcomplete⟩ := TokenStream.kinds_append_newline hs₁ source₂
  have hbrace : ¬ vs.IsBraced := by
    rw [Phrase.IsBraced, hvs]
    exact hfirst
  cases hu with
  | intro hu hne =>
    cases hv with
    | intro hv _ =>
      have hg := DerivesApart.intro ⟨d₁.definitions ++ d₂.definitions, 0, Span.zero⟩
        (hu.append hv hbrace) (List.append_ne_nil_of_left_ne_nil hne _)
      obtain ⟨d, hd, hbare⟩ := parse_of_derivesApart hg (hcomplete.trans hs₂)
        (by rw [Phrase.tokens_append, hus, hvs, hkinds])
      exact ⟨d, hd, congrArg Document.definitions hbare⟩

/-- A type that could still take fields, a comment that no line break ends, and a description. -/
theorem Document.parse_append_newline_described :
    ∃ d₁ d₂, parse "type A # last" = .ok d₁ ∧ parse "\"b\" type B {c: D}" = .ok d₂ ∧
      (TokenStream.ofText "\"b\" type B {c: D}").kinds.head? ≠ some (.punctuator .openBrace) ∧
      ∃ d, parse ("type A # last" ++ "\n" ++ "\"b\" type B {c: D}") = .ok d ∧
        bare d.definitions = bare (d₁.definitions ++ d₂.definitions) := by
  obtain ⟨d₁, h₁⟩ : ∃ d, parse "type A # last" = .ok d := exists_of_isSome (by cbv)
  obtain ⟨d₂, h₂⟩ : ∃ d, parse "\"b\" type B {c: D}" = .ok d := exists_of_isSome (by cbv)
  have hhead : (TokenStream.ofText "\"b\" type B {c: D}").kinds.head? = some (.string "b") := by cbv
  have hfirst : (TokenStream.ofText "\"b\" type B {c: D}").kinds.head? ≠
      some (.punctuator .openBrace) := by
    rw [hhead]
    simp
  exact ⟨d₁, d₂, h₁, h₂, hfirst, parse_append_newline h₁ h₂ hfirst⟩

end GraphQLText
