/-!
# Constructs

The parts of the language that a report can name as the one that was expected. What a source is
made of is named here only; how each part is built is the matter of its own module.
-/

namespace GraphQLText

set_option autoImplicit false

inductive TypeKind
  | scalar
  | object
  | interface
  | union
  | enum
  | inputObject
deriving DecidableEq, Repr, Inhabited

namespace TypeKind

def all : List TypeKind :=
  [scalar, object, interface, union, enum, inputObject]

def keyword : TypeKind → String
  | scalar => "scalar"
  | object => "type"
  | interface => "interface"
  | union => "union"
  | enum => "enum"
  | inputObject => "input"

def ofKeyword? : String → Option TypeKind
  | "scalar" => some scalar
  | "type" => some object
  | "interface" => some interface
  | "union" => some union
  | "enum" => some enum
  | "input" => some inputObject
  | _ => none

def title : TypeKind → String
  | scalar => "Scalar"
  | object => "Object"
  | interface => "Interface"
  | union => "Union"
  | enum => "Enum"
  | inputObject => "Input Object"

theorem ofKeyword?_eq_some_iff {keyword : String} {kind : TypeKind} :
    ofKeyword? keyword = some kind ↔ keyword = kind.keyword := by
  constructor
  · intro h
    unfold ofKeyword? at h
    split at h <;> simp_all <;> subst h <;> rfl
  · rintro rfl
    cases kind <;> rfl

end TypeKind

inductive Construct
  | definition
  | document
  | operationDefinition
  | operationKind
  | fragmentDefinition
  | variableDefinitions
  | variableDefinition
  | type
  | typeName
  | listType
  | nonNullType
  | field
  | fragmentSpread
  | inlineFragment
  | selectionSet
  | selection
  | directives
  | directive
  | arguments
  | argument
  | object
  | objectField
  | value
  | variable
  | string
  | float
  | int
  | boolean
  | enum
  | list
  | constantValue
  | description
  | typeSystemDefinition
  | typeSystemExtension
  | schemaDefinition
  | rootOperationType
  | typeDefinition
  | definitionOf (kind : TypeKind)
  | implementedInterfaces
  | fieldsDefinition
  | fieldDefinition
  | argumentsDefinition
  | inputValueDefinition
  | inputFieldsDefinition
  | unionMemberTypes
  | enumValuesDefinition
  | enumValueDefinition
  | directiveDefinition
  | directiveLocation
  | endOfInput
deriving DecidableEq, Repr, Inhabited

namespace Construct

/-- The construct in words, as a report names it. -/
def title : Construct → String
  | definition => "Definition"
  | document => "Document"
  | operationDefinition => "Operation Definition"
  | operationKind => "Operation Kind"
  | fragmentDefinition => "Fragment Definition"
  | variableDefinitions => "Variable Definitions"
  | variableDefinition => "Variable Definition"
  | type => "Type"
  | typeName => "Type Name"
  | listType => "List Type"
  | nonNullType => "Non-null Type"
  | field => "Field"
  | fragmentSpread => "Fragment Spread"
  | inlineFragment => "Inline Fragment"
  | selectionSet => "Selection Set"
  | selection => "Selection"
  | directives => "Directives"
  | directive => "Directive"
  | arguments => "Arguments"
  | argument => "Argument"
  | object => "Object"
  | objectField => "Object Field"
  | value => "Value"
  | .variable => "Variable"
  | string => "String"
  | float => "Float"
  | int => "Integer"
  | boolean => "Boolean"
  | enum => "Enum"
  | list => "List"
  | constantValue => "Constant Value"
  | description => "Description"
  | typeSystemDefinition => "Type System Definition"
  | typeSystemExtension => "Type System Extension"
  | schemaDefinition => "Schema Definition"
  | rootOperationType => "Root Operation Type"
  | typeDefinition => "Type Definition"
  | definitionOf kind => kind.title ++ " Type Definition"
  | implementedInterfaces => "Implemented Interfaces"
  | fieldsDefinition => "Fields Definition"
  | fieldDefinition => "Field Definition"
  | argumentsDefinition => "Arguments Definition"
  | inputValueDefinition => "Input Value Definition"
  | inputFieldsDefinition => "Input Fields Definition"
  | unionMemberTypes => "Union Member Types"
  | enumValuesDefinition => "Enum Values Definition"
  | enumValueDefinition => "Enum Value Definition"
  | directiveDefinition => "Directive Definition"
  | directiveLocation => "Directive Location"
  | endOfInput => "end of input"

end Construct

end GraphQLText
