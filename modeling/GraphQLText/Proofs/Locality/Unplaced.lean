import GraphQLText.Production
import GraphQLText.Proofs.Locality.Blank
import GraphQLText.Proofs.Writing.Reshape

/-!
# No reader of the language sees places

Every production reads a blank stream as it reads the stream itself: it makes the same node without
its spans there, or fails at the same token for the same reason.
-/

namespace GraphQLText

set_option autoImplicit false

open Reader

theorem TypeName.unplaced_read : Unplaced TypeName.read := by
  refine .located (forgets_nameToken.bind ?_)
  rintro _ name rfl
  exact forgets_pure fun _ => rfl

theorem Variable.unplaced_read : Unplaced Variable.read := by
  refine .located (forgets_expect.bind fun _ _ _ => forgets_nameToken.bind ?_)
  rintro _ name rfl
  exact forgets_pure fun _ => rfl

theorem BooleanValue.unplaced_read : Unplaced BooleanValue.read := by
  refine .located (forgets_token.bind ?_)
  rintro _ value rfl
  exact forgets_pure fun _ => rfl

theorem StringValue.unplaced_read : Unplaced StringValue.read := by
  refine .located (forgets_token.bind ?_)
  rintro _ ⟨value, block⟩ rfl
  exact forgets_pure fun _ => rfl

/-- A number or an enum value, told from its token. -/
theorem Literal.unplaced_located {expected : Construct} {accept : Token → Option String} :
    Unplaced (located (token expected accept >>= fun text =>
      pure fun span => (⟨text, span⟩ : Literal))) := by
  refine .located (forgets_token.bind ?_)
  rintro _ text rfl
  exact forgets_pure fun _ => rfl

theorem NamedValue.unplaced_read {ν : Type} [HasShape ν] {value : Reader ν} {expected : Construct}
    (h : Unplaced value) : Unplaced (NamedValue.read expected value) := by
  refine .located (forgets_nameToken.bind ?_)
  rintro _ name rfl
  refine forgets_expect.bind fun _ _ _ => h.bind ?_
  rintro _ v rfl
  exact forgets_pure fun _ => rfl

theorem Bracketed.unplaced_read {α : Type} [HasShape α] {opening close : Punctuator}
    {expected : Construct} {item : Reader α} (h : Unplaced item) :
    Unplaced (Bracketed.read opening close expected item) := by
  refine .located (forgets_expect.bind fun _ _ _ => (h.untilClosed close).bind ?_)
  rintro _ items rfl
  exact forgets_pure fun _ => rfl

namespace Value

theorem unplaced_readTo (constant : Bool) (depth : Nat) : Unplaced (readTo constant depth) := by
  induction depth with
  | zero => exact forgets_fail
  | succ depth ih =>
    unfold readTo
    refine forgets_peek_bind fun t => ?_
    split
    · exact forgets_skip.bind fun _ _ _ => forgets_pure rfl
    · exact BooleanValue.unplaced_read.map fun _ _ h => congrArg Value.boolean h
    · exact BooleanValue.unplaced_read.map fun _ _ h => congrArg Value.boolean h
    · exact Literal.unplaced_located.map fun _ _ h => congrArg Value.enum h
    · exact .ite Iff.rfl forgets_fail
        (Variable.unplaced_read.map fun _ _ h => congrArg Value.variable h)
    · exact Literal.unplaced_located.map fun _ _ h => congrArg Value.float h
    · exact Literal.unplaced_located.map fun _ _ h => congrArg Value.int h
    · exact StringValue.unplaced_read.map fun _ _ h => congrArg Value.string h
    · exact StringValue.unplaced_read.map fun _ _ h => congrArg Value.string h
    · exact (Bracketed.unplaced_read ih).map fun _ l h =>
        (congrArg Value.list h).trans (reshape_list _ l).symm
    · exact (Bracketed.unplaced_read (NamedValue.unplaced_read ih)).map fun _ o h =>
        (congrArg Value.object h).trans (reshape_object _ o).symm
    · exact forgets_fail

theorem unplaced_read (constant : Bool) : Unplaced (read constant) :=
  .nested (unplaced_readTo constant)

theorem unplaced_readDefault : Unplaced readDefault? :=
  (unplaced_read true).behind _

end Value

section Constants

variable (constant : Bool)

theorem Argument.unplaced_readAll : Unplaced (Argument.readAll constant) :=
  (NamedValue.unplaced_read (Value.unplaced_read constant)).enclosed _ _

theorem Directive.unplaced_read : Unplaced (Directive.read constant) := by
  refine .located (forgets_expect.bind fun _ _ _ => forgets_nameToken.bind ?_)
  rintro _ name rfl
  refine (Argument.unplaced_readAll constant).bind ?_
  rintro _ arguments rfl
  exact forgets_pure fun _ => rfl

theorem Directive.unplaced_readAll : Unplaced (Directive.readAll constant) :=
  .whileMore forgets_at? (Directive.unplaced_read constant)

end Constants

namespace TypeRef

theorem unplaced_readUnmarked {inner : Reader TypeRef} (h : Unplaced inner) :
    Unplaced (readUnmarked inner) := by
  refine forgets_peek_bind fun t => ?_
  split
  · refine forgets_skip.bind fun _ _ _ => h.bind ?_
    rintro _ inner rfl
    exact forgets_expect.bind fun _ _ _ => forgets_pure rfl
  · exact TypeName.unplaced_read.map fun _ _ h => congrArg TypeRef.named h
  · exact forgets_fail

theorem unplaced_readTo (depth : Nat) : Unplaced (readTo depth) := by
  induction depth with
  | zero => exact forgets_fail
  | succ depth ih =>
    refine (unplaced_readUnmarked ih).bind ?_
    rintro _ t rfl
    refine forgets_eat.bind ?_
    rintro found _ rfl
    exact .ite Iff.rfl (.ifAt forgets_fail (forgets_pure rfl)) (forgets_pure rfl)

theorem unplaced_read : Unplaced read :=
  .nested unplaced_readTo

end TypeRef

section Selections

variable {selection : Reader Selection}

theorem SelectionSet.unplaced_readOf (h : Unplaced selection) : Unplaced (readOf selection) := by
  refine .ifAt (.located ((h.enclosed _ _).bind ?_)) (forgets_pure rfl)
  rintro _ items rfl
  exact forgets_pure fun _ => rfl

theorem SelectionSet.unplaced_readBodyOf {expected : Construct} (h : Unplaced selection) :
    Unplaced (readBodyOf expected selection) :=
  .ifAt (SelectionSet.unplaced_readOf h) forgets_fail

theorem Field.unplaced_readOf (h : Unplaced selection) : Unplaced (Field.readOf selection) := by
  have hsecond : Forgets Eq (behind? (.punctuator .colon) (nameToken .field))
      (behind? (.punctuator .colon) (nameToken .field)) := by
    refine forgets_eat.bind ?_
    rintro found _ rfl
    exact .ite Iff.rfl (forgets_nameToken.map fun _ _ h => congrArg some h) (forgets_pure rfl)
  refine .located (forgets_nameToken.bind ?_)
  rintro _ first rfl
  refine hsecond.bind ?_
  rintro _ second rfl
  refine (Argument.unplaced_readAll false).bind ?_
  rintro _ arguments rfl
  refine (Directive.unplaced_readAll false).bind ?_
  rintro _ directives rfl
  refine (SelectionSet.unplaced_readOf h).bind ?_
  rintro _ selections rfl
  exact forgets_pure fun _ => rfl

theorem FragmentSpread.unplaced_read : Unplaced FragmentSpread.read := by
  refine .located (forgets_eat.bind fun _ _ _ => .ifAt forgets_fail ?_)
  refine TypeName.unplaced_read.relabel.bind ?_
  rintro _ name rfl
  refine (Directive.unplaced_readAll false).bind ?_
  rintro _ directives rfl
  exact forgets_pure fun _ => rfl

theorem InlineFragment.unplaced_readOf (h : Unplaced selection) :
    Unplaced (InlineFragment.readOf selection) := by
  refine .located (forgets_eat.bind fun _ _ _ => (TypeName.unplaced_read.behind _).bind ?_)
  rintro _ condition rfl
  refine (Directive.unplaced_readAll false).bind ?_
  rintro _ directives rfl
  refine (SelectionSet.unplaced_readBodyOf h).bind ?_
  rintro _ selections rfl
  exact forgets_pure fun _ => rfl

namespace Selection

theorem unplaced_readFragmentOf (h : Unplaced selection) :
    Unplaced (readFragmentOf selection) := by
  have hinline : Forgets (fun f g => ∀ span : Span, f Span.zero = bare (g span))
      (InlineFragment.readOf selection >>= fun f =>
        pure fun span => Selection.inline { f with span })
      (InlineFragment.readOf selection >>= fun f =>
        pure fun span => Selection.inline { f with span }) := by
    refine (InlineFragment.unplaced_readOf h).bind ?_
    rintro _ f rfl
    exact forgets_pure fun span => (reshape_inline _ { f with span }).symm
  refine .located (forgets_skip.bind fun _ _ _ => forgets_peek_bind fun t => ?_)
  split
  · exact hinline
  · exact hinline
  · exact hinline
  · refine FragmentSpread.unplaced_read.bind ?_
    rintro _ s rfl
    exact forgets_pure fun _ => rfl
  · exact forgets_fail

theorem unplaced_readTo (depth : Nat) : Unplaced (readTo depth) := by
  induction depth with
  | zero => exact forgets_fail
  | succ depth ih =>
    unfold readTo
    refine forgets_peek_bind fun t => ?_
    split
    · exact (Field.unplaced_readOf ih).map fun _ f h =>
        (congrArg Selection.field h).trans (reshape_field _ f).symm
    · exact unplaced_readFragmentOf ih
    · exact forgets_fail

theorem unplaced_read : Unplaced read :=
  .nested unplaced_readTo

end Selection

end Selections

theorem SelectionSet.unplaced_read : Unplaced SelectionSet.read :=
  SelectionSet.unplaced_readOf Selection.unplaced_read

theorem VariableDefinition.unplaced_read : Unplaced VariableDefinition.read := by
  refine .located (Variable.unplaced_read.bind ?_)
  rintro _ var rfl
  refine forgets_expect.bind fun _ _ _ => TypeRef.unplaced_read.bind ?_
  rintro _ type rfl
  refine Value.unplaced_readDefault.bind ?_
  rintro _ default rfl
  refine (Directive.unplaced_readAll true).bind ?_
  rintro _ directives rfl
  exact forgets_pure fun _ => rfl

namespace OperationDefinition

theorem unplaced_readName : Unplaced readName? := by
  refine forgets_peek_bind fun t => ?_
  split
  · exact TypeName.unplaced_read.map fun _ _ h => congrArg some h
  · exact forgets_pure rfl

theorem unplaced_readLong : Unplaced readLong := by
  have hkind : Forgets Eq (relabel .operationDefinition OperationKind.read)
      (relabel .operationDefinition OperationKind.read) := forgets_token.relabel
  refine .located (hkind.bind ?_)
  rintro _ kind rfl
  refine unplaced_readName.bind ?_
  rintro _ name rfl
  refine (VariableDefinition.unplaced_read.enclosed _ _).bind ?_
  rintro _ definitions rfl
  refine (Directive.unplaced_readAll false).bind ?_
  rintro _ directives rfl
  refine (SelectionSet.unplaced_readBodyOf Selection.unplaced_read).bind ?_
  rintro _ selections rfl
  exact forgets_pure fun _ => rfl

theorem unplaced_readShorthand : Unplaced readShorthand := by
  refine .located (SelectionSet.unplaced_read.bind ?_)
  rintro _ selections rfl
  exact forgets_pure fun _ => rfl

theorem unplaced_read : Unplaced read :=
  .ifAt unplaced_readShorthand unplaced_readLong

end OperationDefinition

theorem FragmentDefinition.unplaced_read : Unplaced FragmentDefinition.read := by
  refine .located (forgets_expect.bind fun _ _ _ => .ifAt forgets_fail ?_)
  refine TypeName.unplaced_read.bind ?_
  rintro _ name rfl
  refine forgets_expect.bind fun _ _ _ => TypeName.unplaced_read.bind ?_
  rintro _ condition rfl
  refine (Directive.unplaced_readAll false).bind ?_
  rintro _ directives rfl
  refine (SelectionSet.unplaced_readBodyOf Selection.unplaced_read).bind ?_
  rintro _ selections rfl
  exact forgets_pure fun _ => rfl

theorem StringValue.unplaced_readDescription : Unplaced StringValue.readDescription? := by
  refine forgets_peek_bind fun t => ?_
  split
  · exact StringValue.unplaced_read.map fun _ _ h => congrArg some h
  · exact StringValue.unplaced_read.map fun _ _ h => congrArg some h
  · exact forgets_pure rfl

theorem InputValueDefinition.unplaced_read : Unplaced InputValueDefinition.read := by
  refine .located (StringValue.unplaced_readDescription.bind ?_)
  rintro _ description rfl
  refine forgets_nameToken.bind ?_
  rintro _ name rfl
  refine forgets_expect.bind fun _ _ _ => TypeRef.unplaced_read.bind ?_
  rintro _ type rfl
  refine Value.unplaced_readDefault.bind ?_
  rintro _ default rfl
  refine (Directive.unplaced_readAll true).bind ?_
  rintro _ directives rfl
  exact forgets_pure fun _ => rfl

theorem FieldDefinition.unplaced_read (constant : Bool) :
    Unplaced (FieldDefinition.read constant) := by
  refine .located (StringValue.unplaced_readDescription.bind ?_)
  rintro _ description rfl
  refine forgets_nameToken.bind ?_
  rintro _ name rfl
  refine (InputValueDefinition.unplaced_read.enclosed _ _).bind ?_
  rintro _ arguments rfl
  refine forgets_expect.bind fun _ _ _ => TypeRef.unplaced_read.bind ?_
  rintro _ type rfl
  refine (Directive.unplaced_readAll constant).bind ?_
  rintro _ directives rfl
  exact forgets_pure fun _ => rfl

theorem EnumValueDefinition.unplaced_read (constant : Bool) :
    Unplaced (EnumValueDefinition.read constant) := by
  refine .located (StringValue.unplaced_readDescription.bind ?_)
  rintro _ description rfl
  refine forgets_token.bind ?_
  rintro _ name rfl
  refine (Directive.unplaced_readAll constant).bind ?_
  rintro _ directives rfl
  exact forgets_pure fun _ => rfl

theorem TypeName.unplaced_readListBehind (introducer : Token) (separator : Punctuator) :
    Unplaced (TypeName.readListBehind introducer separator) := by
  refine forgets_eat.bind ?_
  rintro found _ rfl
  exact .ite Iff.rfl (TypeName.unplaced_read.separated _) (forgets_pure rfl)

theorem TypeContent.forgets_readWithDirectives (kind : TypeKind) :
    Forgets (fun p q => p = (bare q.1, bare q.2)) (TypeContent.readWithDirectives kind)
      (TypeContent.readWithDirectives kind) := by
  have hdirectives := Directive.unplaced_readAll true
  have hfields := (FieldDefinition.unplaced_read true).enclosed .openBrace .closeBrace
  cases kind with
  | scalar =>
    refine hdirectives.bind ?_
    rintro _ directives rfl
    exact forgets_pure rfl
  | object | interface =>
    refine (TypeName.unplaced_readListBehind _ _).bind ?_
    rintro _ interfaces rfl
    refine hdirectives.bind ?_
    rintro _ directives rfl
    refine hfields.bind ?_
    rintro _ fields rfl
    exact forgets_pure rfl
  | union =>
    refine hdirectives.bind ?_
    rintro _ directives rfl
    refine (TypeName.unplaced_readListBehind _ _).bind ?_
    rintro _ members rfl
    exact forgets_pure rfl
  | enum =>
    refine hdirectives.bind ?_
    rintro _ directives rfl
    refine ((EnumValueDefinition.unplaced_read true).enclosed _ _).bind ?_
    rintro _ values rfl
    exact forgets_pure rfl
  | inputObject =>
    refine hdirectives.bind ?_
    rintro _ directives rfl
    refine (InputValueDefinition.unplaced_read.enclosed _ _).bind ?_
    rintro _ fields rfl
    exact forgets_pure rfl

theorem RootOperationType.unplaced_read : Unplaced RootOperationType.read := by
  refine .located (forgets_token.bind ?_)
  rintro _ kind rfl
  refine forgets_expect.bind fun _ _ _ => TypeName.unplaced_read.bind ?_
  rintro _ type rfl
  exact forgets_pure fun _ => rfl

section Definitions

variable (description : Option StringValue)

theorem TypeDefinition.forgets_readBody (kind : TypeKind) :
    Forgets (fun f g => ∀ span, f Span.zero = bare (g span)) (readBody kind (bare description))
      (readBody kind description) := by
  refine TypeName.unplaced_read.bind ?_
  rintro _ name rfl
  refine (TypeContent.forgets_readWithDirectives kind).bind ?_
  rintro _ ⟨directives, content⟩ rfl
  exact forgets_pure fun _ => rfl

theorem SchemaDefinition.forgets_readParts :
    Forgets (fun f g => ∀ span, f Span.zero = bare (g span)) (readParts (bare description))
      (readParts description) := by
  refine (Directive.unplaced_readAll true).bind ?_
  rintro _ directives rfl
  refine (RootOperationType.unplaced_read.enclosed _ _).bind ?_
  rintro _ types rfl
  exact forgets_pure fun _ => rfl

theorem SchemaDefinition.forgets_readBody :
    Forgets (fun f g => ∀ span, f Span.zero = bare (g span)) (readBody (bare description))
      (readBody description) := by
  refine (forgets_readParts description).bind fun f g h => ?_
  have hempty : (f Span.zero).operationTypes.isEmpty = (g Span.zero).operationTypes.isEmpty := by
    rw [h Span.zero]
    exact isEmpty_reshape _ _
  exact .ite (by rw [hempty]) forgets_fail (forgets_pure h)

theorem DirectiveDefinition.forgets_readBody :
    Forgets (fun f g => ∀ span, f Span.zero = bare (g span)) (readBody (bare description))
      (readBody description) := by
  have hlocation : Unplaced DirectiveLocation.read := forgets_token
  refine forgets_expect.bind fun _ _ _ => forgets_nameToken.bind ?_
  rintro _ name rfl
  refine (InputValueDefinition.unplaced_read.enclosed _ _).bind ?_
  rintro _ arguments rfl
  refine forgets_eat.bind ?_
  rintro repeatable _ rfl
  refine forgets_expect.bind fun _ _ _ => (hlocation.separated _).bind ?_
  rintro _ locations rfl
  have hlocations : bare locations = locations := List.map_id locations
  rw [hlocations]
  exact forgets_pure fun _ => rfl

end Definitions

theorem TypeDefinition.unplaced_readOf (kind : TypeKind) : Unplaced (readOf kind) := by
  refine .located (StringValue.unplaced_readDescription.bind ?_)
  rintro _ description rfl
  exact forgets_expect.bind fun _ _ _ => TypeDefinition.forgets_readBody description kind

theorem TypeDefinition.unplaced_read : Unplaced read := by
  refine .located (StringValue.unplaced_readDescription.bind ?_)
  rintro _ description rfl
  refine forgets_token.bind ?_
  rintro kind _ rfl
  exact TypeDefinition.forgets_readBody description kind

theorem SchemaDefinition.unplaced_read : Unplaced SchemaDefinition.read := by
  refine .located (StringValue.unplaced_readDescription.bind ?_)
  rintro _ description rfl
  exact forgets_expect.bind fun _ _ _ => SchemaDefinition.forgets_readBody description

theorem DirectiveDefinition.unplaced_read : Unplaced DirectiveDefinition.read := by
  refine .located (StringValue.unplaced_readDescription.bind ?_)
  rintro _ description rfl
  exact forgets_expect.bind fun _ _ _ => DirectiveDefinition.forgets_readBody description

namespace Definition

theorem unplaced_readTypeSystem : Unplaced readTypeSystem := by
  refine .located (StringValue.unplaced_readDescription.bind ?_)
  rintro _ description rfl
  refine forgets_token.bind ?_
  rintro part _ rfl
  cases part with
  | schema =>
    exact (SchemaDefinition.forgets_readBody description).bind fun f g h =>
      forgets_pure fun span => congrArg Definition.schema (h span)
  | directive =>
    exact (DirectiveDefinition.forgets_readBody description).bind fun f g h =>
      forgets_pure fun span => congrArg Definition.directive (h span)
  | type kind =>
    exact (TypeDefinition.forgets_readBody description kind).bind fun f g h =>
      forgets_pure fun span => congrArg Definition.type (h span)

theorem unplaced_readExtension : Unplaced readExtension := by
  refine .located (forgets_expect.bind fun _ _ _ => forgets_token.bind ?_)
  rintro kind _ rfl
  cases kind with
  | none =>
    refine (SchemaDefinition.forgets_readParts none).bind fun f g h => ?_
    have hadds : (f Span.zero).addsNothing = (g Span.zero).addsNothing := by
      rw [h Span.zero]
      exact SchemaDefinition.addsNothing_reshape _ _
    exact .ite (by rw [hadds]) forgets_fail
      (forgets_pure fun span => congrArg Definition.schemaExtension (h span))
  | some kind =>
    refine (TypeDefinition.forgets_readBody none kind).bind fun f g h => ?_
    have hadds : (f Span.zero).addsNothing = (g Span.zero).addsNothing := by
      rw [h Span.zero]
      exact TypeDefinition.addsNothing_reshape _ _
    exact .ite (by rw [hadds]) forgets_fail
      (forgets_pure fun span => congrArg Definition.typeExtension (h span))

theorem unplaced_read : Unplaced read := by
  have hoperation : Unplaced (operation <$> OperationDefinition.read : Reader Definition) :=
    OperationDefinition.unplaced_read.map fun _ _ h => congrArg Definition.operation h
  refine forgets_peek_bind fun t => ?_
  split
  · exact hoperation
  · exact unplaced_readTypeSystem
  · exact unplaced_readTypeSystem
  · exact FragmentDefinition.unplaced_read.map fun _ _ h => congrArg Definition.fragment h
  · exact unplaced_readExtension
  · exact .ite Iff.rfl hoperation (.ite Iff.rfl unplaced_readTypeSystem forgets_fail)
  · exact forgets_fail

end Definition

namespace Document

theorem forgets_more : Forgets Eq more more := by
  intro c
  simp only [more, Cursor.isComplete_blank]
  exact .ok rfl

theorem unplaced_read : Unplaced read := by
  refine .located ((Unplaced.whileMore forgets_more Definition.unplaced_read).bind ?_)
  rintro _ definitions rfl
  refine .ite (by rw [bare, isEmpty_reshape]) forgets_fail ?_
  intro c
  exact .ok fun _ => congrArg (fun size => Document.mk (bare definitions) size Span.zero)
    c.start_nextSpan_blank

end Document

theorem Production.unplaced_read (p : Production) : Unplaced p.read := by
  cases p with
  | «variable» => exact Variable.unplaced_read
  | typeName => exact TypeName.unplaced_read
  | enumValue | intValue | floatValue => exact Literal.unplaced_located
  | booleanValue => exact BooleanValue.unplaced_read
  | stringValue => exact StringValue.unplaced_read
  | value => exact Value.unplaced_read false
  | listValue => exact Bracketed.unplaced_read (Value.unplaced_read false)
  | objectValue =>
    exact Bracketed.unplaced_read (NamedValue.unplaced_read (Value.unplaced_read false))
  | objectField | argument => exact NamedValue.unplaced_read (Value.unplaced_read false)
  | arguments => exact Argument.unplaced_readAll false
  | directive => exact Directive.unplaced_read false
  | directives => exact Directive.unplaced_readAll false
  | selectionSet => exact SelectionSet.unplaced_read
  | selection => exact Selection.unplaced_read
  | field => exact Field.unplaced_readOf Selection.unplaced_read
  | fragmentSpread => exact FragmentSpread.unplaced_read
  | inlineFragment => exact InlineFragment.unplaced_readOf Selection.unplaced_read
  | type => exact TypeRef.unplaced_read
  | variableDefinition => exact VariableDefinition.unplaced_read
  | variableDefinitions => exact VariableDefinition.unplaced_read.enclosed _ _
  | operationKind => exact forgets_token
  | operationDefinition => exact OperationDefinition.unplaced_read
  | fragmentDefinition => exact FragmentDefinition.unplaced_read
  | inputValueDefinition => exact InputValueDefinition.unplaced_read
  | argumentsDefinition | inputFieldsDefinition =>
    exact InputValueDefinition.unplaced_read.enclosed _ _
  | fieldDefinition => exact FieldDefinition.unplaced_read false
  | fieldsDefinition => exact (FieldDefinition.unplaced_read false).enclosed _ _
  | enumValueDefinition => exact EnumValueDefinition.unplaced_read false
  | enumValuesDefinition => exact (EnumValueDefinition.unplaced_read false).enclosed _ _
  | implementsInterfaces | unionMemberTypes => exact TypeName.unplaced_readListBehind _ _
  | typeDefinition => exact TypeDefinition.unplaced_read
  | typeDefinitionOf kind => exact TypeDefinition.unplaced_readOf kind
  | rootOperationType => exact RootOperationType.unplaced_read
  | rootOperationTypes => exact RootOperationType.unplaced_read.enclosed _ _
  | schemaDefinition => exact SchemaDefinition.unplaced_read
  | directiveLocation => exact forgets_token
  | directiveLocations => exact Unplaced.separated forgets_token _
  | directiveDefinition => exact DirectiveDefinition.unplaced_read
  | definition => exact Definition.unplaced_read
  | document => exact Document.unplaced_read

end GraphQLText
