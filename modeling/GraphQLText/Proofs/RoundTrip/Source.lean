import GraphQLText.Proofs.Reading.Concatenation
import GraphQLText.Proofs.RoundTrip.Document

/-!
# The documents that sources spell

What sources are read as is well formed, and every well-formed document is read from some source.
Where its own text would not do, because selections behind a type would be read as fields, the
keyword `query` before the selections keeps the two apart.
-/

namespace GraphQLText

set_option autoImplicit false

namespace Definition

/-- Selections alone may be spelled behind the keyword of a query as well. -/
theorem Derives.cons_query {ws : Phrase} {d : Definition} (h : Derives ws d) (hb : ws.IsBraced) :
    Derives (⟨.name "query", true⟩ :: ws) d := by
  have hshorthand := isShorthand_of_isBraced h hb
  cases h with
  | @operation _ o ho =>
    cases ho with
    | long => simp [Phrase.IsBraced] at hb
    | shorthand _ hshort hw hne =>
      obtain ⟨kind, name, definitions, directives, selections, span⟩ := o
      obtain ⟨rfl, rfl, rfl, rfl⟩ := OperationDefinition.parts_of_isShorthand hshort
      exact .operation
        (@OperationDefinition.Derives.long [] [] [] _ true _ .absent .absent .nil hw hne (by simpa))
  | _ => exact absurd hshorthand (by simp [isShorthand])

/-- A well-formed definition is spelled by some source that does not begin with a brace. -/
theorem exists_source {d : Definition} (hd : d.WellFormed) :
    ∃ source ws, (TokenStream.ofText source).isComplete = true ∧
      ws.tokens = (TokenStream.ofText source).kinds ∧ Derives ws (reshape keepBlock d) ∧
      ¬ ws.IsBraced := by
  have hg := derives_layout 0 hd
  obtain ⟨hkinds, hcomplete⟩ := (d.clean_layout 0).ofText_phrase (wellFormed_layout 0 hd)
  by_cases hb : (d.layout 0).phrase.IsBraced
  · have hquery : (TokenStream.ofText "query").kinds = [.name "query"] ∧
        (TokenStream.ofText "query").isComplete = true := by constructor <;> cbv
    obtain ⟨hkinds', hcomplete'⟩ := TokenStream.kinds_append_newline hquery.2 (d.layout 0).render
    refine ⟨_, _, hcomplete'.trans hcomplete, ?_, hg.cons_query hb, by simp [Phrase.IsBraced]⟩
    rw [hkinds', hquery.1, ← hkinds]
    rfl
  · exact ⟨_, _, hcomplete, hkinds, hg, hb⟩

/-- Each on lines of its own, well-formed definitions are spelled apart. -/
theorem exists_source_apart {ds : List Definition} (h : ∀ d ∈ ds, d.WellFormed) :
    ∃ source ws, (TokenStream.ofText source).isComplete = true ∧
      ws.tokens = (TokenStream.ofText source).kinds ∧ Apart ws (reshape keepBlock ds) ∧
      ¬ ws.IsBraced := by
  induction ds with
  | nil =>
    have hempty : (TokenStream.ofText "").kinds = [] ∧
        (TokenStream.ofText "").isComplete = true := by constructor <;> cbv
    exact ⟨"", [], hempty.2, hempty.1.symm, .nil, by simp [Phrase.IsBraced]⟩
  | cons d ds ih =>
    obtain ⟨source, us, hs, hus, hu, hb⟩ := exists_source (h d (List.mem_cons_self ..))
    obtain ⟨more, vs, hmore, hvs, hv, hb'⟩ := ih fun x hx => h x (List.mem_cons_of_mem d hx)
    obtain ⟨hkinds, hcomplete⟩ := TokenStream.kinds_append_newline hs more
    refine ⟨_, us ++ vs, hcomplete.trans hmore, ?_, .cons hu hv fun _ => hb', ?_⟩
    · rw [Phrase.tokens_append, hus, hvs, hkinds]
    · rwa [isBraced_append hu]

end Definition

namespace Document

/-- What a source is read as is well formed, and what is well formed is what some source is read
as. -/
theorem wellFormed_and_exists_source (d : Document) :
    (∀ source, parse source = .ok d → d.WellFormed) ∧
      (d.WellFormed → ∃ source b, parse source = .ok b ∧ sameShape b d = true) := by
  constructor
  · intro source h
    exact wellFormed_of_parse h
  · intro hd
    obtain ⟨source, ws, hs, hws, hapart, -⟩ := Definition.exists_source_apart hd.definitions
    have hg := DerivesApart.intro (reshape keepBlock d) hapart (reshape_ne_nil hd.nonempty)
    obtain ⟨b, hb, hbare⟩ := parse_of_derivesApart hg hs hws
    refine ⟨source, b, hb, sameShape_iff.mpr ?_⟩
    rw [← shape_bare b, hbare, shape_bare, shape_reshape]

/-- A query that its own text would lose to the type before it. -/
theorem wellFormed_and_exists_source_openType :
    ∃ d, parse "type A query {a: B}" = .ok d ∧ d.WellFormed ∧
      ∃ source b, parse source = .ok b ∧ sameShape b d = true := by
  obtain ⟨d, h⟩ : ∃ d, parse "type A query {a: B}" = .ok d := exists_of_isSome (by cbv)
  obtain ⟨hwell, hexists⟩ := wellFormed_and_exists_source d
  exact ⟨d, h, hwell _ h, hexists (hwell _ h)⟩

end Document

end GraphQLText
