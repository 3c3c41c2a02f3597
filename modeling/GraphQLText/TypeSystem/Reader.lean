import GraphQLText.Operation.Reader
import GraphQLText.TypeSystem.Basic

/-!
# Reading the type system

A definition may begin with a description and goes on with a keyword. All that follows a keyword is
constant. An extension is read like the definition that it extends, but it has no description and
must add something.
-/

namespace GraphQLText

set_option autoImplicit false

open Reader

def StringValue.readDescription? : Reader (Option StringValue) := do
  match ← peek with
  | some (.string _) | some (.blockString _) => some <$> StringValue.read
  | _ => return none

namespace InputValueDefinition

def read : Reader InputValueDefinition :=
  located do
    let description ← StringValue.readDescription?
    let name ← nameToken .inputValueDefinition
    expect (.punctuator .colon) .inputValueDefinition
    let type ← TypeRef.read
    let default ← Value.readDefault?
    let directives ← Directive.readAll true
    return fun span => { description, name, type, default, directives, span }

def readArguments : Reader (List InputValueDefinition) :=
  enclosed .openParen .closeParen read

def readFields : Reader (List InputValueDefinition) :=
  enclosed .openBrace .closeBrace read

end InputValueDefinition

namespace FieldDefinition

def read (constant : Bool) : Reader FieldDefinition :=
  located do
    let description ← StringValue.readDescription?
    let name ← nameToken .fieldDefinition
    let arguments ← InputValueDefinition.readArguments
    expect (.punctuator .colon) .fieldDefinition
    let type ← TypeRef.read
    let directives ← Directive.readAll constant
    return fun span => { description, name, arguments, type, directives, span }

def readAll (constant : Bool) : Reader (List FieldDefinition) :=
  enclosed .openBrace .closeBrace (read constant)

end FieldDefinition

namespace EnumValueDefinition

def read (constant : Bool) : Reader EnumValueDefinition :=
  located do
    let description ← StringValue.readDescription?
    let name ← token .enumValueDefinition fun
      | .name name => if isEnumName name then some name else none
      | _ => none
    let directives ← Directive.readAll constant
    return fun span => { description, name, directives, span }

def readAll (constant : Bool) : Reader (List EnumValueDefinition) :=
  enclosed .openBrace .closeBrace (read constant)

end EnumValueDefinition

def TypeName.readListBehind (introducer : Token) (separator : Punctuator) :
    Reader (List TypeName) := do
  if ← eat introducer then
    separated separator TypeName.read
  else
    return []

def TypeName.readInterfaces : Reader (List TypeName) :=
  TypeName.readListBehind (.name "implements") .ampersand

def TypeName.readMembers : Reader (List TypeName) :=
  TypeName.readListBehind (.punctuator .equals) .pipe

namespace TypeContent

/-- Reads the directives of a type and the content that its kind calls for. The interfaces stand
before the directives and all else behind them. -/
def readWithDirectives : TypeKind → Reader (List Directive × TypeContent)
  | .scalar => do
    let directives ← Directive.readAll true
    return (directives, .scalar)
  | .object => do
    let interfaces ← TypeName.readInterfaces
    let directives ← Directive.readAll true
    let fields ← FieldDefinition.readAll true
    return (directives, .object interfaces fields)
  | .interface => do
    let interfaces ← TypeName.readInterfaces
    let directives ← Directive.readAll true
    let fields ← FieldDefinition.readAll true
    return (directives, .interface interfaces fields)
  | .union => do
    let directives ← Directive.readAll true
    let members ← TypeName.readMembers
    return (directives, .union members)
  | .enum => do
    let directives ← Directive.readAll true
    let values ← EnumValueDefinition.readAll true
    return (directives, .enum values)
  | .inputObject => do
    let directives ← Directive.readAll true
    let fields ← InputValueDefinition.readFields
    return (directives, .inputObject fields)

end TypeContent

namespace TypeDefinition

def readBody (kind : TypeKind) (description : Option StringValue) :
    Reader (Span → TypeDefinition) := do
  let name ← TypeName.read
  let (directives, content) ← TypeContent.readWithDirectives kind
  return fun span => { description, name, directives, content, span }

def readOf (kind : TypeKind) : Reader TypeDefinition :=
  located do
    let description ← StringValue.readDescription?
    expect (.name kind.keyword) (.definitionOf kind)
    readBody kind description

def read : Reader TypeDefinition :=
  located do
    let description ← StringValue.readDescription?
    let kind ← token .typeDefinition fun
      | .name s => TypeKind.ofKeyword? s
      | _ => none
    readBody kind description

end TypeDefinition

namespace RootOperationType

def read : Reader RootOperationType :=
  located do
    let kind ← OperationKind.read
    expect (.punctuator .colon) .rootOperationType
    let type ← TypeName.read
    return fun span => { kind, type, span }

def readAll : Reader (List RootOperationType) :=
  enclosed .openBrace .closeBrace read

end RootOperationType

namespace SchemaDefinition

/-- Reads what follows the keyword of a schema, which may come to nothing. -/
def readParts (description : Option StringValue) : Reader (Span → SchemaDefinition) := do
  let directives ← Directive.readAll true
  let operationTypes ← RootOperationType.readAll
  return fun span => { description, directives, operationTypes, span }

def readBody (description : Option StringValue) : Reader (Span → SchemaDefinition) := do
  let schema ← readParts description
  if (schema Span.zero).operationTypes.isEmpty then
    fail .schemaDefinition
  else
    return schema

def read : Reader SchemaDefinition :=
  located do
    let description ← StringValue.readDescription?
    expect (.name "schema") .schemaDefinition
    readBody description

end SchemaDefinition

namespace DirectiveLocation

def read : Reader DirectiveLocation :=
  token .directiveLocation fun
    | .name s => ofName? s
    | _ => none

def readAll : Reader (List DirectiveLocation) :=
  separated .pipe read

end DirectiveLocation

namespace DirectiveDefinition

def readBody (description : Option StringValue) : Reader (Span → DirectiveDefinition) := do
  expect (.punctuator .atSign) .directiveDefinition
  let name ← nameToken .directiveDefinition
  let arguments ← InputValueDefinition.readArguments
  let repeatable ← eat (.name "repeatable")
  expect (.name "on") .directiveDefinition
  let locations ← DirectiveLocation.readAll
  return fun span => { description, name, arguments, repeatable, locations, span }

def read : Reader DirectiveDefinition :=
  located do
    let description ← StringValue.readDescription?
    expect (.name "directive") .directiveDefinition
    readBody description

end DirectiveDefinition

end GraphQLText
