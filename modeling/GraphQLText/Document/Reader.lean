import GraphQLText.Document.Basic
import GraphQLText.Reader.Parse
import GraphQLText.TypeSystem.Reader

/-!
# Reading documents

The kind of a definition is told from its first token, or from its second one if the first is a
description or the keyword of an extension.
-/

namespace GraphQLText

set_option autoImplicit false

open Reader

/-- What the keyword of a definition or an extension in a schema introduces. -/
inductive SchemaPart
  | schema
  | directive
  | type (kind : TypeKind)
deriving DecidableEq, Repr

namespace SchemaPart

def ofKeyword? : String → Option SchemaPart
  | "schema" => some schema
  | "directive" => some directive
  | s => (TypeKind.ofKeyword? s).map type

end SchemaPart

namespace Definition

def readTypeSystem : Reader Definition :=
  located do
    let description ← StringValue.readDescription?
    let part ← token .typeSystemDefinition fun
      | .name s => SchemaPart.ofKeyword? s
      | _ => none
    match part with
    | .schema =>
      let d ← SchemaDefinition.readBody description
      return fun span => .schema (d span)
    | .directive =>
      let d ← DirectiveDefinition.readBody description
      return fun span => .directive (d span)
    | .type kind =>
      let d ← TypeDefinition.readBody kind description
      return fun span => .type (d span)

/-- Reads an extension. Schemas and types can be extended, and directives cannot. -/
def readExtension : Reader Definition :=
  located do
    expect (.name "extend") .typeSystemExtension
    let kind ← token .typeSystemExtension fun
      | .name "schema" => some none
      | .name s => (TypeKind.ofKeyword? s).map some
      | _ => none
    match kind with
    | none =>
      let d ← SchemaDefinition.readParts none
      if (d Span.zero).addsNothing then
        fail .typeSystemExtension
      else
        return fun span => .schemaExtension (d span)
    | some kind =>
      let d ← TypeDefinition.readBody kind none
      if (d Span.zero).addsNothing then
        fail .typeSystemExtension
      else
        return fun span => .typeExtension (d span)

def read : Reader Definition := do
  match ← peek with
  | some (.punctuator .openBrace) => operation <$> OperationDefinition.read
  | some (.string _) | some (.blockString _) => readTypeSystem
  | some (.name "fragment") => fragment <$> FragmentDefinition.read
  | some (.name "extend") => readExtension
  | some (.name s) =>
    if (OperationKind.ofKeyword? s).isSome then
      operation <$> OperationDefinition.read
    else if (SchemaPart.ofKeyword? s).isSome then
      readTypeSystem
    else
      fail .definition
  | _ => fail .definition

end Definition

namespace Document

def more : Reader Bool := fun c =>
  .ok (!c.isComplete, c)

/-- Reads a document, which has at least one definition. Its size is the size of its source. -/
def read : Reader Document :=
  located do
    let definitions ← whileMore more Definition.read
    if definitions.isEmpty then
      fail .definition
    else
      let sizeHint ← nextStart
      return fun span => { definitions, sizeHint, span }

def parse (source : String) : Except Diagnostic Document :=
  Reader.parse read source

end Document

end GraphQLText
