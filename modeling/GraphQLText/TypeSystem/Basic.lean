import GraphQLText.Construct
import GraphQLText.Directive.Basic
import GraphQLText.Operation.Basic

/-!
# The type system

The definitions that a schema consists of. The types of all kinds have a description, a name and
directives; what else a type has depends on its kind.
-/

namespace GraphQLText

set_option autoImplicit false

/-- An argument of a field or a directive, or a field of an input object, as a schema defines it. -/
structure InputValueDefinition where
  description : Option StringValue
  name : String
  type : TypeRef
  default : Option Value
  directives : List Directive
  span : Span
deriving DecidableEq, Repr, Inhabited

structure FieldDefinition where
  description : Option StringValue
  name : String
  arguments : List InputValueDefinition
  type : TypeRef
  directives : List Directive
  span : Span
deriving DecidableEq, Repr, Inhabited

structure EnumValueDefinition where
  description : Option StringValue
  name : String
  directives : List Directive
  span : Span
deriving DecidableEq, Repr, Inhabited

/-- What a type has besides its description, its name and its directives. -/
inductive TypeContent
  | scalar
  | object (interfaces : List TypeName) (fields : List FieldDefinition)
  | interface (interfaces : List TypeName) (fields : List FieldDefinition)
  | union (members : List TypeName)
  | enum (values : List EnumValueDefinition)
  | inputObject (fields : List InputValueDefinition)
deriving DecidableEq, Repr, Inhabited

structure TypeDefinition where
  description : Option StringValue
  name : TypeName
  directives : List Directive
  content : TypeContent
  span : Span
deriving DecidableEq, Repr, Inhabited

/-- The type with which operations of a kind begin. -/
structure RootOperationType where
  kind : OperationKind
  type : TypeName
  span : Span
deriving DecidableEq, Repr, Inhabited

structure SchemaDefinition where
  description : Option StringValue
  directives : List Directive
  operationTypes : List RootOperationType
  span : Span
deriving DecidableEq, Repr, Inhabited

inductive DirectiveLocation
  | query
  | mutation
  | subscription
  | field
  | fragmentDefinition
  | fragmentSpread
  | inlineFragment
  | variableDefinition
  | schema
  | scalar
  | object
  | fieldDefinition
  | argumentDefinition
  | interface
  | union
  | enum
  | enumValue
  | inputObject
  | inputFieldDefinition
deriving DecidableEq, Repr, Inhabited

structure DirectiveDefinition where
  description : Option StringValue
  name : String
  arguments : List InputValueDefinition
  repeatable : Bool
  locations : List DirectiveLocation
  span : Span
deriving DecidableEq, Repr, Inhabited

namespace DirectiveLocation

def all : List DirectiveLocation :=
  [query, mutation, subscription, field, fragmentDefinition, fragmentSpread, inlineFragment,
    variableDefinition, schema, scalar, object, fieldDefinition, argumentDefinition, interface,
    union, enum, enumValue, inputObject, inputFieldDefinition]

def name : DirectiveLocation → String
  | query => "QUERY"
  | mutation => "MUTATION"
  | subscription => "SUBSCRIPTION"
  | field => "FIELD"
  | fragmentDefinition => "FRAGMENT_DEFINITION"
  | fragmentSpread => "FRAGMENT_SPREAD"
  | inlineFragment => "INLINE_FRAGMENT"
  | variableDefinition => "VARIABLE_DEFINITION"
  | schema => "SCHEMA"
  | scalar => "SCALAR"
  | object => "OBJECT"
  | fieldDefinition => "FIELD_DEFINITION"
  | argumentDefinition => "ARGUMENT_DEFINITION"
  | interface => "INTERFACE"
  | union => "UNION"
  | enum => "ENUM"
  | enumValue => "ENUM_VALUE"
  | inputObject => "INPUT_OBJECT"
  | inputFieldDefinition => "INPUT_FIELD_DEFINITION"

def ofName? (s : String) : Option DirectiveLocation :=
  all.find? fun location => location.name == s

end DirectiveLocation

namespace InputValueDefinition

def anyDescribed (ds : List InputValueDefinition) : Bool :=
  ds.any fun d => d.description.isSome

end InputValueDefinition

namespace TypeContent

def kind : TypeContent → TypeKind
  | scalar => .scalar
  | object .. => .object
  | interface .. => .interface
  | union .. => .union
  | enum .. => .enum
  | inputObject .. => .inputObject

def isEmpty : TypeContent → Bool
  | scalar => true
  | object interfaces fields | interface interfaces fields => interfaces.isEmpty && fields.isEmpty
  | union members => members.isEmpty
  | enum values => values.isEmpty
  | inputObject fields => fields.isEmpty

end TypeContent

namespace TypeDefinition

def kind (d : TypeDefinition) : TypeKind :=
  d.content.kind

/-- Whether the definition would add nothing to a type that it extended. -/
def addsNothing (d : TypeDefinition) : Bool :=
  d.directives.isEmpty && d.content.isEmpty

end TypeDefinition

namespace SchemaDefinition

def addsNothing (d : SchemaDefinition) : Bool :=
  d.directives.isEmpty && d.operationTypes.isEmpty

end SchemaDefinition

instance : HasShape InputValueDefinition where
  reshape flag d :=
    ⟨reshape flag d.description, d.name, reshape flag d.type, reshape flag d.default,
      reshape flag d.directives, Span.zero⟩
  reshape_reshape _ _ _ := by simp [reshape_reshape]

instance : HasShape FieldDefinition where
  reshape flag d :=
    ⟨reshape flag d.description, d.name, reshape flag d.arguments, reshape flag d.type,
      reshape flag d.directives, Span.zero⟩
  reshape_reshape _ _ _ := by simp [reshape_reshape]

instance : HasShape EnumValueDefinition where
  reshape flag d :=
    ⟨reshape flag d.description, d.name, reshape flag d.directives, Span.zero⟩
  reshape_reshape _ _ _ := by simp [reshape_reshape]

def TypeContent.restyle (flag : String → Bool → Bool) : TypeContent → TypeContent
  | .scalar => .scalar
  | .object interfaces fields => .object (reshape flag interfaces) (reshape flag fields)
  | .interface interfaces fields => .interface (reshape flag interfaces) (reshape flag fields)
  | .union members => .union (reshape flag members)
  | .enum values => .enum (reshape flag values)
  | .inputObject fields => .inputObject (reshape flag fields)

instance : HasShape TypeContent where
  reshape := TypeContent.restyle
  reshape_reshape _ _ c := by cases c <;> simp [TypeContent.restyle, reshape_reshape]

instance : HasShape TypeDefinition where
  reshape flag d :=
    ⟨reshape flag d.description, reshape flag d.name, reshape flag d.directives,
      reshape flag d.content, Span.zero⟩
  reshape_reshape _ _ _ := by simp [reshape_reshape]

instance : HasShape RootOperationType where
  reshape flag d := ⟨d.kind, reshape flag d.type, Span.zero⟩
  reshape_reshape _ _ _ := by simp [reshape_reshape]

instance : HasShape SchemaDefinition where
  reshape flag d :=
    ⟨reshape flag d.description, reshape flag d.directives, reshape flag d.operationTypes,
      Span.zero⟩
  reshape_reshape _ _ _ := by simp [reshape_reshape]

instance : HasShape DirectiveLocation where
  reshape _ location := location
  reshape_reshape _ _ _ := rfl

instance : HasShape DirectiveDefinition where
  reshape flag d :=
    ⟨reshape flag d.description, d.name, reshape flag d.arguments, d.repeatable, d.locations,
      Span.zero⟩
  reshape_reshape _ _ _ := by simp [reshape_reshape]

end GraphQLText
