import GraphQLText.Operation.Basic
import GraphQLText.Selection.Reader
import GraphQLText.TypeRef.Reader

/-!
# Reading operations and fragments

Braces at the place of an operation are those of a query without a name. Defaults and the
directives of variables are constant.
-/

namespace GraphQLText

set_option autoImplicit false

open Reader

def OperationKind.read : Reader OperationKind :=
  token .operationKind fun
    | .name s => ofKeyword? s
    | _ => none

namespace VariableDefinition

def read : Reader VariableDefinition :=
  located do
    let var ← Variable.read
    expect (.punctuator .colon) .variableDefinition
    let type ← TypeRef.read
    let default ← Value.readDefault?
    let directives ← Directive.readAll true
    return fun span => { var, type, default, directives, span }

def readAll : Reader (List VariableDefinition) :=
  enclosed .openParen .closeParen read

end VariableDefinition

namespace OperationDefinition

def readName? : Reader (Option TypeName) := do
  match ← peek with
  | some (.name _) => some <$> TypeName.read
  | _ => return none

/-- Reads an operation that begins with a keyword. -/
def readLong : Reader OperationDefinition :=
  located do
    let kind ← relabel .operationDefinition OperationKind.read
    let name ← readName?
    let variableDefinitions ← VariableDefinition.readAll
    let directives ← Directive.readAll false
    let selections ← SelectionSet.readBodyOf .operationDefinition Selection.read
    return fun span => { kind, name, variableDefinitions, directives, selections, span }

def readShorthand : Reader OperationDefinition :=
  located do
    let selections ← SelectionSet.read
    return fun span =>
      { kind := .query
        name := none
        variableDefinitions := []
        directives := []
        selections
        span }

def read : Reader OperationDefinition := do
  if ← at? (.punctuator .openBrace) then
    readShorthand
  else
    readLong

end OperationDefinition

/-- Reads the definition of a fragment, which must not be named `on`. -/
def FragmentDefinition.read : Reader FragmentDefinition :=
  located do
    expect (.name "fragment") .fragmentDefinition
    if ← at? (.name "on") then
      fail .fragmentDefinition
    else
      let name ← TypeName.read
      expect (.name "on") .fragmentDefinition
      let typeCondition ← TypeName.read
      let directives ← Directive.readAll false
      let selections ← SelectionSet.readBodyOf .fragmentDefinition Selection.read
      return fun span => { name, typeCondition, directives, selections, span }

end GraphQLText
