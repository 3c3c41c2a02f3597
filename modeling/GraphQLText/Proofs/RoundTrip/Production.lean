import GraphQLText.Production
import GraphQLText.Proofs.RoundTrip.Node

/-!
# The round trip through every production

Writing a well-formed node and reading the text is the identity on what the node says, whatever the
production is that it belongs to.
-/

namespace GraphQLText

set_option autoImplicit false

namespace Production

/-- What is asked of a node of the production, so that a source can spell it. -/
def WellFormed : (p : Production) → p.Node → Prop
  | .variable, n => n.WellFormed
  | .typeName, n => n.WellFormed
  | .enumValue, n => n.IsEnum
  | .intValue, n => n.IsInt
  | .floatValue, n => n.IsFloat
  | .booleanValue, _ => True
  | .stringValue, _ => True
  | .value, n => n.WellFormed false
  | .listValue, n => (Value.list n).WellFormed false
  | .objectValue, n => (Value.object n).WellFormed false
  | .objectField, n => n.WellFormed false
  | .argument, n => n.WellFormed false
  | .arguments, ns => ∀ n ∈ ns, n.WellFormed false
  | .directive, n => n.WellFormed false
  | .directives, ns => ∀ n ∈ ns, n.WellFormed false
  | .selectionSet, n => ∀ s ∈ n.items, s.WellFormed
  | .selection, n => n.WellFormed
  | .field, n => (Selection.field n).WellFormed
  | .fragmentSpread, n => n.WellFormed
  | .inlineFragment, n => (Selection.inline n).WellFormed
  | .type, n => n.WellFormed
  | .variableDefinition, n => n.WellFormed
  | .variableDefinitions, ns => ∀ n ∈ ns, n.WellFormed
  | .operationKind, _ => True
  | .operationDefinition, n => n.WellFormed
  | .fragmentDefinition, n => n.WellFormed
  | .inputValueDefinition, n => n.WellFormed
  | .argumentsDefinition, ns => ∀ n ∈ ns, n.WellFormed
  | .inputFieldsDefinition, ns => ∀ n ∈ ns, n.WellFormed
  | .fieldDefinition, n => n.WellFormed
  | .fieldsDefinition, ns => ∀ n ∈ ns, n.WellFormed
  | .enumValueDefinition, n => n.WellFormed
  | .enumValuesDefinition, ns => ∀ n ∈ ns, n.WellFormed
  | .implementsInterfaces, ns => ∀ n ∈ ns, n.WellFormed
  | .unionMemberTypes, ns => ∀ n ∈ ns, n.WellFormed
  | .typeDefinition, n => n.WellFormed
  | .typeDefinitionOf kind, n => n.WellFormed ∧ n.kind = kind
  | .rootOperationType, n => n.WellFormed
  | .rootOperationTypes, ns => ∀ n ∈ ns, n.WellFormed
  | .schemaDefinition, n => n.WellFormed
  | .directiveLocation, _ => True
  | .directiveLocations, ns => ns ≠ []
  | .directiveDefinition, n => n.WellFormed
  | .definition, n => n.WellFormed
  | .document, n => n.WellFormed

/-- Every production but the document reads back what its nodes are written with. -/
theorem readsBack {p : Production} (hp : p ≠ .document) {write : Nat → p.Node → Layout}
    (hwrite : p.layout? = some write) : ReadsBack p.read write p.WellFormed := by
  cases p with
  | «variable» => cases hwrite; exact Variable.readsBack
  | typeName => cases hwrite; exact TypeName.readsBack
  | enumValue => cases hwrite; exact Literal.readsBack_enum
  | intValue => cases hwrite; exact Literal.readsBack_int
  | floatValue => cases hwrite; exact Literal.readsBack_float
  | booleanValue => cases hwrite; exact BooleanValue.readsBack
  | stringValue => cases hwrite; exact StringValue.readsBack
  | value => cases hwrite; exact Value.readsBack false
  | listValue => cases hwrite; exact ListValue.readsBack false
  | objectValue => cases hwrite; exact ObjectValue.readsBack false
  | objectField => cases hwrite; exact NamedValue.readsBack false _
  | argument => cases hwrite; exact NamedValue.readsBack false _
  | arguments => cases hwrite; exact Argument.readsBack_all false
  | directive => cases hwrite; exact Directive.readsBack false
  | directives => cases hwrite; exact Directive.readsBack_all false
  | selectionSet => cases hwrite; exact SelectionSet.readsBack
  | selection => cases hwrite; exact Selection.readsBack
  | field => cases hwrite; exact Field.readsBack
  | fragmentSpread => cases hwrite; exact FragmentSpread.readsBack
  | inlineFragment => cases hwrite; exact InlineFragment.readsBack
  | type => cases hwrite; exact TypeRef.readsBack
  | variableDefinition => cases hwrite; exact VariableDefinition.readsBack
  | variableDefinitions => cases hwrite; exact VariableDefinition.readsBack_all
  | operationKind => cases hwrite; exact OperationKind.readsBack
  | operationDefinition => cases hwrite; exact OperationDefinition.readsBack
  | fragmentDefinition => cases hwrite; exact FragmentDefinition.readsBack
  | inputValueDefinition => cases hwrite; exact InputValueDefinition.readsBack
  | argumentsDefinition => cases hwrite; exact InputValueDefinition.readsBack_arguments
  | fieldDefinition => cases hwrite; exact FieldDefinition.readsBack false
  | enumValueDefinition => cases hwrite; exact EnumValueDefinition.readsBack false
  | implementsInterfaces => cases hwrite; exact TypeName.readsBack_interfaces
  | typeDefinition => cases hwrite; exact TypeDefinition.readsBack
  | typeDefinitionOf kind => cases hwrite; exact TypeDefinition.readsBack_of kind
  | rootOperationType => cases hwrite; exact RootOperationType.readsBack
  | schemaDefinition => cases hwrite; exact SchemaDefinition.readsBack
  | directiveLocation => cases hwrite; exact DirectiveLocation.readsBack
  | directiveDefinition => cases hwrite; exact DirectiveDefinition.readsBack
  | definition => cases hwrite; exact Definition.readsBack
  | inputFieldsDefinition | fieldsDefinition | enumValuesDefinition | unionMemberTypes => cases hwrite
  | rootOperationTypes | directiveLocations => cases hwrite
  | document => exact absurd rfl hp

/-- Any well-formed node but a document is read from its text, at any depth, and what was read says
the same and is written the same, at any other depth as well. -/
theorem parse_layout {p : Production} (hp : p ≠ .document) {write : Nat → p.Node → Layout}
    (hwrite : p.layout? = some write) (level : Nat) {n : p.Node} (hn : p.WellFormed n) :
    ∃ m, p.parse (write level n).render = .ok m ∧ p.same m n = true ∧
      ∀ l, (write l m).render = (write l n).render := by
  obtain ⟨m, hm, hshape, hlayout⟩ := (readsBack hp hwrite).parse level hn
  exact ⟨m, hm, (p.same_iff m n).mpr hshape, fun l => congrArg Layout.render (hlayout l)⟩

def describedField : FieldDefinition where
  description := some ⟨"first\n  \"\"\" second", true, Span.zero⟩
  name := "f"
  arguments :=
    [⟨some (.ofString "what"), "x", .nonNull (.list (.named (.ofString "Int"))),
      some (.list ⟨[.int ⟨"-12", Span.zero⟩, .string ⟨"\n", true, Span.zero⟩], Span.zero⟩), [],
      Span.zero⟩]
  type := .named (.ofString "String")
  directives := [⟨"d", [⟨"a", .enum ⟨"RED", Span.zero⟩, Span.zero⟩], Span.zero⟩]
  span := Span.zero

theorem wellFormed_describedField : describedField.WellFormed := by
  have hnumber : Literal.IsInt ⟨"-12", Span.zero⟩ :=
    .negative (.digits (by decide) (by decide) (by simp [Number.AllDigits]; decide))
  have hitems : ∀ v ∈ [Value.int ⟨"-12", Span.zero⟩, .string ⟨"\n", true, Span.zero⟩],
      v.WellFormed true := by
    simp only [List.forall_mem_cons, List.not_mem_nil, false_implies, implies_true, and_true]
    exact ⟨.int hnumber, .string _⟩
  have hargument : InputValueDefinition.WellFormed
      ⟨some (.ofString "what"), "x", .nonNull (.list (.named (.ofString "Int"))),
        some (.list ⟨[.int ⟨"-12", Span.zero⟩, .string ⟨"\n", true, Span.zero⟩], Span.zero⟩), [],
        Span.zero⟩ := by
    refine ⟨by decide, .nonNull (.list (.named (by decide))) (by simp), ?_, by simp⟩
    rintro v ⟨⟩
    exact .list _ hitems
  have hdirective : Directive.WellFormed true
      ⟨"d", [⟨"a", .enum ⟨"RED", Span.zero⟩, Span.zero⟩], Span.zero⟩ := by
    refine ⟨by decide, ?_⟩
    rw [List.forall_mem_singleton]
    exact ⟨by decide, .enum (by decide)⟩
  refine ⟨by decide, ?_, .named (by decide), ?_⟩
  · simpa [describedField] using hargument
  · simpa [describedField] using hdirective

theorem parse_layout_describedField :
    fieldDefinition ≠ document ∧ layout? fieldDefinition = some FieldDefinition.layout ∧
      WellFormed fieldDefinition describedField ∧
      ∃ m, parse fieldDefinition (describedField.layout 2).render = .ok m ∧
        same fieldDefinition m describedField = true ∧
        ∀ l, (FieldDefinition.layout l m).render = (describedField.layout l).render :=
  ⟨by decide, rfl, wellFormed_describedField,
    parse_layout (p := fieldDefinition) (by decide) rfl 2 wellFormed_describedField⟩

end Production

end GraphQLText
