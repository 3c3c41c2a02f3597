import GraphQLText.Document.Layout
import GraphQLText.Document.Reader

/-!
# Productions

The productions of the grammar, each with its nodes, its reader and the way its nodes are written.
Any of them can be read as a whole source text, so what holds of all sources and all nodes is said
here once for the whole language.
-/

namespace GraphQLText

set_option autoImplicit false

inductive Production
  | variable
  | typeName
  | enumValue
  | intValue
  | floatValue
  | booleanValue
  | stringValue
  | value
  | listValue
  | objectValue
  | objectField
  | argument
  | arguments
  | directive
  | directives
  | selectionSet
  | selection
  | field
  | fragmentSpread
  | inlineFragment
  | type
  | variableDefinition
  | variableDefinitions
  | operationKind
  | operationDefinition
  | fragmentDefinition
  | inputValueDefinition
  | argumentsDefinition
  | inputFieldsDefinition
  | fieldDefinition
  | fieldsDefinition
  | enumValueDefinition
  | enumValuesDefinition
  | implementsInterfaces
  | unionMemberTypes
  | typeDefinition
  | typeDefinitionOf (kind : TypeKind)
  | rootOperationType
  | rootOperationTypes
  | schemaDefinition
  | directiveLocation
  | directiveLocations
  | directiveDefinition
  | definition
  | document
deriving DecidableEq, Repr, Inhabited

namespace Production

abbrev Node : Production → Type
  | .variable => Variable
  | .typeName => TypeName
  | .enumValue => Literal
  | .intValue => Literal
  | .floatValue => Literal
  | .booleanValue => BooleanValue
  | .stringValue => StringValue
  | .value => Value
  | .listValue => ListValue
  | .objectValue => ObjectValue
  | .objectField => ObjectField
  | .argument => Argument
  | .arguments => List Argument
  | .directive => Directive
  | .directives => List Directive
  | .selectionSet => SelectionSet
  | .selection => Selection
  | .field => Field
  | .fragmentSpread => FragmentSpread
  | .inlineFragment => InlineFragment
  | .type => TypeRef
  | .variableDefinition => VariableDefinition
  | .variableDefinitions => List VariableDefinition
  | .operationKind => OperationKind
  | .operationDefinition => OperationDefinition
  | .fragmentDefinition => FragmentDefinition
  | .inputValueDefinition => InputValueDefinition
  | .argumentsDefinition => List InputValueDefinition
  | .inputFieldsDefinition => List InputValueDefinition
  | .fieldDefinition => FieldDefinition
  | .fieldsDefinition => List FieldDefinition
  | .enumValueDefinition => EnumValueDefinition
  | .enumValuesDefinition => List EnumValueDefinition
  | .implementsInterfaces => List TypeName
  | .unionMemberTypes => List TypeName
  | .typeDefinition => TypeDefinition
  | .typeDefinitionOf _ => TypeDefinition
  | .rootOperationType => RootOperationType
  | .rootOperationTypes => List RootOperationType
  | .schemaDefinition => SchemaDefinition
  | .directiveLocation => DirectiveLocation
  | .directiveLocations => List DirectiveLocation
  | .directiveDefinition => DirectiveDefinition
  | .definition => Definition
  | .document => Document

/-- The reader of a production. Entered on its own, a production is not in a constant place. -/
def read : (p : Production) → Reader p.Node
  | .variable => Variable.read
  | .typeName => TypeName.read
  | .enumValue => Literal.readEnum
  | .intValue => Literal.readInt
  | .floatValue => Literal.readFloat
  | .booleanValue => BooleanValue.read
  | .stringValue => StringValue.read
  | .value => Value.read false
  | .listValue => ListValue.read false
  | .objectValue => ObjectValue.read false
  | .objectField => ObjectField.read false
  | .argument => Argument.read false
  | .arguments => Argument.readAll false
  | .directive => Directive.read false
  | .directives => Directive.readAll false
  | .selectionSet => SelectionSet.read
  | .selection => Selection.read
  | .field => Field.read
  | .fragmentSpread => FragmentSpread.read
  | .inlineFragment => InlineFragment.read
  | .type => TypeRef.read
  | .variableDefinition => VariableDefinition.read
  | .variableDefinitions => VariableDefinition.readAll
  | .operationKind => OperationKind.read
  | .operationDefinition => OperationDefinition.read
  | .fragmentDefinition => FragmentDefinition.read
  | .inputValueDefinition => InputValueDefinition.read
  | .argumentsDefinition => InputValueDefinition.readArguments
  | .inputFieldsDefinition => InputValueDefinition.readFields
  | .fieldDefinition => FieldDefinition.read false
  | .fieldsDefinition => FieldDefinition.readAll false
  | .enumValueDefinition => EnumValueDefinition.read false
  | .enumValuesDefinition => EnumValueDefinition.readAll false
  | .implementsInterfaces => TypeName.readInterfaces
  | .unionMemberTypes => TypeName.readMembers
  | .typeDefinition => TypeDefinition.read
  | .typeDefinitionOf kind => TypeDefinition.readOf kind
  | .rootOperationType => RootOperationType.read
  | .rootOperationTypes => RootOperationType.readAll
  | .schemaDefinition => SchemaDefinition.read
  | .directiveLocation => DirectiveLocation.read
  | .directiveLocations => DirectiveLocation.readAll
  | .directiveDefinition => DirectiveDefinition.read
  | .definition => Definition.read
  | .document => Document.read

/-- How the nodes of a production are written at a depth. Lists that are only ever written as the
body of another node have no form of their own. -/
def layout? : (p : Production) → Option (Nat → p.Node → Layout)
  | .variable => some fun _ => Variable.layout
  | .typeName => some fun _ => TypeName.layout
  | .enumValue => some fun _ => Literal.layout .name
  | .intValue => some fun _ => Literal.layout .int
  | .floatValue => some fun _ => Literal.layout .float
  | .booleanValue => some fun _ => BooleanValue.layout
  | .stringValue => some StringValue.layout
  | .value => some Value.layout
  | .listValue => some ListValue.layout
  | .objectValue => some ObjectValue.layout
  | .objectField => some NamedValue.layout
  | .argument => some NamedValue.layout
  | .arguments => some Argument.layoutAll
  | .directive => some Directive.layout
  | .directives => some Directive.layoutAll
  | .selectionSet => some SelectionSet.layout
  | .selection => some Selection.layout
  | .field => some Field.layout
  | .fragmentSpread => some FragmentSpread.layout
  | .inlineFragment => some InlineFragment.layout
  | .type => some fun _ => TypeRef.layout
  | .variableDefinition => some VariableDefinition.layout
  | .variableDefinitions => some VariableDefinition.layoutAll
  | .operationKind => some fun _ => OperationKind.layout
  | .operationDefinition => some OperationDefinition.layout
  | .fragmentDefinition => some FragmentDefinition.layout
  | .inputValueDefinition => some InputValueDefinition.layout
  | .argumentsDefinition => some InputValueDefinition.argumentsLayout
  | .inputFieldsDefinition => none
  | .fieldDefinition => some FieldDefinition.layout
  | .fieldsDefinition => none
  | .enumValueDefinition => some EnumValueDefinition.layout
  | .enumValuesDefinition => none
  | .implementsInterfaces => some fun _ => TypeName.interfacesLayout
  | .unionMemberTypes => none
  | .typeDefinition => some TypeDefinition.layout
  | .typeDefinitionOf _ => some TypeDefinition.layout
  | .rootOperationType => some fun _ => RootOperationType.layout
  | .rootOperationTypes => none
  | .schemaDefinition => some SchemaDefinition.layout
  | .directiveLocation => some fun _ => DirectiveLocation.layout
  | .directiveLocations => none
  | .directiveDefinition => some DirectiveDefinition.layout
  | .definition => some Definition.layout
  | .document => some Document.layout

instance (p : Production) : DecidableEq p.Node := by
  cases p <;> exact inferInstance

instance (p : Production) : HasShape p.Node := by
  cases p <;> exact inferInstance

def shape (p : Production) (node : p.Node) : p.Node :=
  HasShape.shape node

def same (p : Production) (a b : p.Node) : Bool :=
  sameShape a b

def parse (p : Production) (source : String) : Except Diagnostic p.Node :=
  p.read.parse source

theorem same_iff (p : Production) (a b : p.Node) :
    p.same a b = true ↔ p.shape a = p.shape b :=
  sameShape_iff

end Production

end GraphQLText
