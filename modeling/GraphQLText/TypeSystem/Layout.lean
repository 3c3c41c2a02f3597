import GraphQLText.Operation.Layout
import GraphQLText.TypeSystem.Basic

/-!
# Writing the type system

A description stands on lines of its own above the node that it describes. Arguments stand on one
line unless one of them is described, and then each has its own line.
-/

namespace GraphQLText

set_option autoImplicit false

def StringValue.descriptionLayout (level : Nat) (description : Option StringValue) : Layout :=
  match description with
  | some s => s.layout level ++ [.line level]
  | none => []

namespace InputValueDefinition

def layout (level : Nat) (d : InputValueDefinition) : Layout :=
  StringValue.descriptionLayout level d.description ++
    .name d.name :: .mark .colon :: .space :: d.type.layout ++
    Value.defaultLayout level d.default ++ Directive.layoutAll level d.directives

def argumentsLayout (level : Nat) (ds : List InputValueDefinition) : Layout :=
  if ds.isEmpty then
    []
  else if anyDescribed ds then
    Layout.stacked .openParen .closeParen level (ds.map (layout (level + 1)))
  else
    Layout.enclosed .openParen .closeParen (ds.map (layout level))

end InputValueDefinition

def FieldDefinition.layout (level : Nat) (d : FieldDefinition) : Layout :=
  StringValue.descriptionLayout level d.description ++
    .name d.name :: InputValueDefinition.argumentsLayout level d.arguments ++
    .mark .colon :: .space :: d.type.layout ++ Directive.layoutAll level d.directives

def EnumValueDefinition.layout (level : Nat) (d : EnumValueDefinition) : Layout :=
  StringValue.descriptionLayout level d.description ++
    .name d.name :: Directive.layoutAll level d.directives

def TypeName.listLayout (separator : Punctuator) (names : List TypeName) : Layout :=
  Layout.separated [.space, .mark separator, .space] (names.map TypeName.layout)

def TypeName.interfacesLayout (interfaces : List TypeName) : Layout :=
  if interfaces.isEmpty then []
  else .space :: .name "implements" :: .space :: listLayout .ampersand interfaces

namespace TypeContent

def headLayout : TypeContent → Layout
  | object interfaces _ | interface interfaces _ => TypeName.interfacesLayout interfaces
  | _ => []

def tailLayout (level : Nat) : TypeContent → Layout
  | scalar => []
  | object _ fields | interface _ fields =>
    Layout.body level (fields.map (FieldDefinition.layout (level + 1)))
  | union members =>
    if members.isEmpty then []
    else .space :: .mark .equals :: .space :: TypeName.listLayout .pipe members
  | enum values => Layout.body level (values.map (EnumValueDefinition.layout (level + 1)))
  | inputObject fields =>
    Layout.body level (fields.map (InputValueDefinition.layout (level + 1)))

end TypeContent

def TypeDefinition.layout (level : Nat) (d : TypeDefinition) : Layout :=
  StringValue.descriptionLayout level d.description ++
    .name d.kind.keyword :: .space :: d.name.layout ++ d.content.headLayout ++
    Directive.layoutAll level d.directives ++ d.content.tailLayout level

def RootOperationType.layout (d : RootOperationType) : Layout :=
  d.kind.layout ++ .mark .colon :: .space :: d.type.layout

def SchemaDefinition.layout (level : Nat) (d : SchemaDefinition) : Layout :=
  StringValue.descriptionLayout level d.description ++
    .name "schema" :: Directive.layoutAll level d.directives ++
    Layout.body level (d.operationTypes.map RootOperationType.layout)

def DirectiveLocation.layout (location : DirectiveLocation) : Layout :=
  [.name location.name]

def DirectiveDefinition.layout (level : Nat) (d : DirectiveDefinition) : Layout :=
  StringValue.descriptionLayout level d.description ++
    .name "directive" :: .space :: .mark .atSign :: .name d.name ::
    InputValueDefinition.argumentsLayout level d.arguments ++
    (if d.repeatable then [.space, .name "repeatable"] else []) ++
    .space :: .name "on" :: .space ::
    Layout.separated [.space, .mark .pipe, .space] (d.locations.map DirectiveLocation.layout)

end GraphQLText
