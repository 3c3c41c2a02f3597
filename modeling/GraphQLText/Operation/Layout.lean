import GraphQLText.Operation.Basic
import GraphQLText.Selection.Layout
import GraphQLText.TypeRef.Layout

/-!
# Writing operations and fragments
-/

namespace GraphQLText

set_option autoImplicit false

def OperationKind.layout (kind : OperationKind) : Layout :=
  [.name kind.keyword]

def VariableDefinition.layout (level : Nat) (d : VariableDefinition) : Layout :=
  d.var.layout ++ .mark .colon :: .space :: d.type.layout ++
    Value.defaultLayout level d.default ++ Directive.layoutAll level d.directives

def VariableDefinition.layoutAll (level : Nat) (ds : List VariableDefinition) : Layout :=
  if ds.isEmpty then []
  else Layout.enclosed .openParen .closeParen (ds.map (VariableDefinition.layout level))

namespace OperationDefinition

/-- What stands between the keyword of an operation and its variables. -/
def nameLayout (o : OperationDefinition) : Layout :=
  match o.name with
  | some n => .space :: n.layout
  | none => if o.variableDefinitions.isEmpty then [] else [.space]

def layout (level : Nat) (o : OperationDefinition) : Layout :=
  if o.isShorthand then
    o.selections.layout level
  else
    o.kind.layout ++ o.nameLayout ++ VariableDefinition.layoutAll level o.variableDefinitions ++
      Directive.layoutAll level o.directives ++ o.selections.bodyLayout level

end OperationDefinition

def FragmentDefinition.layout (level : Nat) (f : FragmentDefinition) : Layout :=
  .name "fragment" :: .space :: f.name.layout ++
    .space :: .name "on" :: .space :: f.typeCondition.layout ++
    Directive.layoutAll level f.directives ++ f.selections.bodyLayout level

end GraphQLText
