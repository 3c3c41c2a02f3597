import GraphQLText.Proofs.Spans.Moved

/-!
# The nodes of a document

All nodes of a document that stand somewhere in its source, each with the production that reads it,
in the order in which they begin. A definition counts as one node, whatever it defines. A selection
set that is absent stands nowhere and does not count.
-/

namespace GraphQLText

set_option autoImplicit false

/-- A node within another one, with its production. -/
structure Part where
  production : Production
  node : production.Node

namespace Production

/-- Where a node stands. A list, and a value, a selection or a type reference, which is one of
several other nodes, has no span of its own. -/
def span? : (p : Production) → p.Node → Option Span
  | .variable, n => some n.span
  | .typeName, n => some n.span
  | .enumValue, n => some n.span
  | .intValue, n => some n.span
  | .floatValue, n => some n.span
  | .booleanValue, n => some n.span
  | .stringValue, n => some n.span
  | .listValue, n => some n.span
  | .objectValue, n => some n.span
  | .objectField, n => some n.span
  | .argument, n => some n.span
  | .directive, n => some n.span
  | .selectionSet, n => some n.span
  | .field, n => some n.span
  | .fragmentSpread, n => some n.span
  | .inlineFragment, n => some n.span
  | .variableDefinition, n => some n.span
  | .operationDefinition, n => some n.span
  | .fragmentDefinition, n => some n.span
  | .inputValueDefinition, n => some n.span
  | .fieldDefinition, n => some n.span
  | .enumValueDefinition, n => some n.span
  | .typeDefinition, n => some n.span
  | .typeDefinitionOf _, n => some n.span
  | .rootOperationType, n => some n.span
  | .schemaDefinition, n => some n.span
  | .directiveDefinition, n => some n.span
  | .definition, n => some n.span
  | .document, n => some n.span
  | _, _ => none

end Production

def Part.span? (x : Part) : Option Span :=
  x.production.span? x.node

def TypeName.nodes (n : TypeName) : List Part :=
  [⟨.typeName, n⟩]

def Variable.nodes (v : Variable) : List Part :=
  [⟨.variable, v⟩]

def StringValue.nodes (s : StringValue) : List Part :=
  [⟨.stringValue, s⟩]

namespace Value

mutual

def nodes : Value → List Part
  | .variable v => v.nodes
  | .int l => [⟨.intValue, l⟩]
  | .float l => [⟨.floatValue, l⟩]
  | .string s => s.nodes
  | .boolean b => [⟨.booleanValue, b⟩]
  | .null => []
  | .enum l => [⟨.enumValue, l⟩]
  | .list ⟨items, span⟩ => ⟨.listValue, ⟨items, span⟩⟩ :: itemNodes items
  | .object ⟨fields, span⟩ => ⟨.objectValue, ⟨fields, span⟩⟩ :: fieldNodes fields

def itemNodes : List Value → List Part
  | [] => []
  | v :: vs => nodes v ++ itemNodes vs

def fieldNodes : List (NamedValue Value) → List Part
  | [] => []
  | ⟨name, v, span⟩ :: fs => ⟨.objectField, ⟨name, v, span⟩⟩ :: nodes v ++ fieldNodes fs

end

end Value

def ObjectField.nodes (f : ObjectField) : List Part :=
  ⟨.objectField, f⟩ :: f.value.nodes

namespace Value

theorem nodes_list (l : ListValue) : (list l).nodes = ⟨.listValue, l⟩ :: l.items.flatMap nodes := by
  obtain ⟨items, span⟩ := l
  have hitems : itemNodes items = items.flatMap nodes := by
    induction items with
    | nil => rfl
    | cons v vs ih => rw [itemNodes, ih, List.flatMap_cons]
  rw [nodes, hitems]

theorem nodes_object (o : ObjectValue) :
    (object o).nodes = ⟨.objectValue, o⟩ :: o.items.flatMap ObjectField.nodes := by
  obtain ⟨fields, span⟩ := o
  have hfields : fieldNodes fields = fields.flatMap ObjectField.nodes := by
    induction fields with
    | nil => rfl
    | cons f fs ih => rw [fieldNodes, ih, List.flatMap_cons, ObjectField.nodes]
  rw [nodes, hfields]

end Value

def Argument.nodes (a : Argument) : List Part :=
  ⟨.argument, a⟩ :: a.value.nodes

def Directive.nodes (d : Directive) : List Part :=
  ⟨.directive, d⟩ :: d.arguments.flatMap Argument.nodes

def TypeRef.nodes : TypeRef → List Part
  | .named n => n.nodes
  | .list inner => inner.nodes
  | .nonNull inner => inner.nodes

namespace Selection

mutual

def nodes : Selection → List Part
  | .field ⟨a, name, arguments, directives, ⟨items, p⟩, span⟩ =>
    ⟨.field, ⟨a, name, arguments, directives, ⟨items, p⟩, span⟩⟩ ::
      (arguments.flatMap Argument.nodes ++ directives.flatMap Directive.nodes ++
        if Bracketed.isAbsent ⟨items, p⟩ then []
        else ⟨.selectionSet, ⟨items, p⟩⟩ :: itemNodes items)
  | .spread s =>
    ⟨.fragmentSpread, s⟩ :: (s.name.nodes ++ s.directives.flatMap Directive.nodes)
  | .inline ⟨condition, directives, ⟨items, p⟩, span⟩ =>
    ⟨.inlineFragment, ⟨condition, directives, ⟨items, p⟩, span⟩⟩ ::
      (condition.toList.flatMap TypeName.nodes ++ directives.flatMap Directive.nodes ++
        if Bracketed.isAbsent ⟨items, p⟩ then []
        else ⟨.selectionSet, ⟨items, p⟩⟩ :: itemNodes items)

def itemNodes : List Selection → List Part
  | [] => []
  | s :: ss => nodes s ++ itemNodes ss

end

theorem itemNodes_eq_flatMap (ss : List Selection) : itemNodes ss = ss.flatMap nodes := by
  induction ss with
  | nil => rfl
  | cons s ss ih => rw [itemNodes, ih, List.flatMap_cons]

end Selection

/-- The nodes of a selection set, of which there are none if it is absent. -/
def SelectionSet.nodes (s : SelectionSet) : List Part :=
  if s.isAbsent then [] else ⟨.selectionSet, s⟩ :: s.items.flatMap Selection.nodes

def Field.parts (f : Field) : List Part :=
  f.arguments.flatMap Argument.nodes ++ f.directives.flatMap Directive.nodes ++
    SelectionSet.nodes f.selections

def FragmentSpread.parts (s : FragmentSpread) : List Part :=
  s.name.nodes ++ s.directives.flatMap Directive.nodes

def InlineFragment.parts (f : InlineFragment) : List Part :=
  f.typeCondition.toList.flatMap TypeName.nodes ++ f.directives.flatMap Directive.nodes ++
    SelectionSet.nodes f.selections

namespace Selection

theorem nodes_field (f : Field) : (field f).nodes = ⟨.field, f⟩ :: f.parts := by
  obtain ⟨a, name, arguments, directives, ⟨items, p⟩, span⟩ := f
  rw [nodes, itemNodes_eq_flatMap]
  rfl

theorem nodes_spread (s : FragmentSpread) :
    (spread s).nodes = ⟨.fragmentSpread, s⟩ :: s.parts := by
  rw [nodes]
  rfl

theorem nodes_inline (f : InlineFragment) : (inline f).nodes = ⟨.inlineFragment, f⟩ :: f.parts := by
  obtain ⟨condition, directives, ⟨items, p⟩, span⟩ := f
  rw [nodes, itemNodes_eq_flatMap]
  rfl

end Selection

def VariableDefinition.nodes (d : VariableDefinition) : List Part :=
  ⟨.variableDefinition, d⟩ ::
    (d.var.nodes ++ d.type.nodes ++ d.default.toList.flatMap Value.nodes ++
      d.directives.flatMap Directive.nodes)

def OperationDefinition.parts (o : OperationDefinition) : List Part :=
  o.name.toList.flatMap TypeName.nodes ++ o.variableDefinitions.flatMap VariableDefinition.nodes ++
    o.directives.flatMap Directive.nodes ++ o.selections.nodes

def FragmentDefinition.parts (f : FragmentDefinition) : List Part :=
  f.name.nodes ++ f.typeCondition.nodes ++ f.directives.flatMap Directive.nodes ++
    f.selections.nodes

def InputValueDefinition.nodes (d : InputValueDefinition) : List Part :=
  ⟨.inputValueDefinition, d⟩ ::
    (d.description.toList.flatMap StringValue.nodes ++ d.type.nodes ++
      d.default.toList.flatMap Value.nodes ++ d.directives.flatMap Directive.nodes)

def FieldDefinition.nodes (d : FieldDefinition) : List Part :=
  ⟨.fieldDefinition, d⟩ ::
    (d.description.toList.flatMap StringValue.nodes ++
      d.arguments.flatMap InputValueDefinition.nodes ++ d.type.nodes ++
      d.directives.flatMap Directive.nodes)

def EnumValueDefinition.nodes (d : EnumValueDefinition) : List Part :=
  ⟨.enumValueDefinition, d⟩ ::
    (d.description.toList.flatMap StringValue.nodes ++ d.directives.flatMap Directive.nodes)

def TypeContent.headNodes : TypeContent → List Part
  | .object interfaces _ | .interface interfaces _ => interfaces.flatMap TypeName.nodes
  | _ => []

def TypeContent.tailNodes : TypeContent → List Part
  | .scalar => []
  | .object _ fields | .interface _ fields => fields.flatMap FieldDefinition.nodes
  | .union members => members.flatMap TypeName.nodes
  | .enum values => values.flatMap EnumValueDefinition.nodes
  | .inputObject fields => fields.flatMap InputValueDefinition.nodes

def TypeDefinition.parts (d : TypeDefinition) : List Part :=
  d.description.toList.flatMap StringValue.nodes ++ d.name.nodes ++
    (d.content.headNodes ++ d.directives.flatMap Directive.nodes ++ d.content.tailNodes)

def RootOperationType.nodes (d : RootOperationType) : List Part :=
  ⟨.rootOperationType, d⟩ :: d.type.nodes

def SchemaDefinition.parts (d : SchemaDefinition) : List Part :=
  d.description.toList.flatMap StringValue.nodes ++ d.directives.flatMap Directive.nodes ++
    d.operationTypes.flatMap RootOperationType.nodes

def DirectiveDefinition.parts (d : DirectiveDefinition) : List Part :=
  d.description.toList.flatMap StringValue.nodes ++ d.arguments.flatMap InputValueDefinition.nodes

def Definition.parts : Definition → List Part
  | .operation d => d.parts
  | .fragment d => d.parts
  | .schema d | .schemaExtension d => d.parts
  | .type d | .typeExtension d => d.parts
  | .directive d => d.parts

def Definition.nodes (d : Definition) : List Part :=
  ⟨.definition, d⟩ :: d.parts

def Document.parts (d : Document) : List Part :=
  d.definitions.flatMap Definition.nodes

def Document.nodes (d : Document) : List Part :=
  ⟨.document, d⟩ :: d.parts

end GraphQLText
