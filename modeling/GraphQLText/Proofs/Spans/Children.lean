import GraphQLText.Proofs.Spans.Nodes

/-!
# The children of a node

What a node is directly made of, in the order in which the grammar writes it. A value, a selection or
a type reference is one of several other nodes and stands for that one.
-/

namespace GraphQLText

set_option autoImplicit false

def Value.own : Value → List Part
  | .variable v => [⟨.variable, v⟩]
  | .int l => [⟨.intValue, l⟩]
  | .float l => [⟨.floatValue, l⟩]
  | .string s => [⟨.stringValue, s⟩]
  | .boolean b => [⟨.booleanValue, b⟩]
  | .null => []
  | .enum l => [⟨.enumValue, l⟩]
  | .list l => [⟨.listValue, l⟩]
  | .object o => [⟨.objectValue, o⟩]

def Selection.own : Selection → List Part
  | .field f => [⟨.field, f⟩]
  | .spread s => [⟨.fragmentSpread, s⟩]
  | .inline f => [⟨.inlineFragment, f⟩]

def TypeRef.own (t : TypeRef) : List Part :=
  [⟨.typeName, t.innermost⟩]

def Definition.part : Definition → Part
  | .operation d => ⟨.operationDefinition, d⟩
  | .fragment d => ⟨.fragmentDefinition, d⟩
  | .schema d | .schemaExtension d => ⟨.schemaDefinition, d⟩
  | .type d | .typeExtension d => ⟨.typeDefinition, d⟩
  | .directive d => ⟨.directiveDefinition, d⟩

def Production.single (p : Production) (n : p.Node) : List Part :=
  [⟨p, n⟩]

def Production.parts (p : Production) (ns : List p.Node) : List Part :=
  ns.flatMap p.single

def TypeContent.head : TypeContent → List Part
  | .object interfaces _ | .interface interfaces _ => Production.parts .typeName interfaces
  | _ => []

def TypeContent.tail : TypeContent → List Part
  | .scalar => []
  | .object _ fields | .interface _ fields => Production.parts .fieldDefinition fields
  | .union members => Production.parts .typeName members
  | .enum values => Production.parts .enumValueDefinition values
  | .inputObject fields => Production.parts .inputValueDefinition fields

def TypeDefinition.children (d : TypeDefinition) : List Part :=
  Production.parts .stringValue d.description.toList ++ [⟨.typeName, d.name⟩] ++
    (d.content.head ++ Production.parts .directive d.directives ++ d.content.tail)

def Production.children : (p : Production) → p.Node → List Part
  | .variable, _ | .typeName, _ | .enumValue, _ | .intValue, _ | .floatValue, _
  | .booleanValue, _ | .stringValue, _ | .operationKind, _ | .directiveLocation, _
  | .directiveLocations, _ => []
  | .value, v => v.own
  | .listValue, l => l.items.flatMap Value.own
  | .objectValue, o => parts .objectField o.items
  | .objectField, f => f.value.own
  | .argument, a => a.value.own
  | .arguments, as => parts .argument as
  | .directive, d => parts .argument d.arguments
  | .directives, ds => parts .directive ds
  | .selectionSet, s => s.items.flatMap Selection.own
  | .selection, s => s.own
  | .field, f =>
    parts .argument f.arguments ++ parts .directive f.directives ++ [⟨.selectionSet, f.selections⟩]
  | .fragmentSpread, s => [⟨.typeName, s.name⟩] ++ parts .directive s.directives
  | .inlineFragment, f =>
    parts .typeName f.typeCondition.toList ++ parts .directive f.directives ++
      [⟨.selectionSet, f.selections⟩]
  | .type, t => t.own
  | .variableDefinition, d =>
    [⟨.variable, d.var⟩] ++ d.type.own ++ d.default.toList.flatMap Value.own ++
      parts .directive d.directives
  | .variableDefinitions, ds => parts .variableDefinition ds
  | .operationDefinition, o =>
    parts .typeName o.name.toList ++ parts .variableDefinition o.variableDefinitions ++
      parts .directive o.directives ++ [⟨.selectionSet, o.selections⟩]
  | .fragmentDefinition, f =>
    [⟨.typeName, f.name⟩] ++ [⟨.typeName, f.typeCondition⟩] ++ parts .directive f.directives ++
      [⟨.selectionSet, f.selections⟩]
  | .inputValueDefinition, d =>
    parts .stringValue d.description.toList ++ d.type.own ++ d.default.toList.flatMap Value.own ++
      parts .directive d.directives
  | .argumentsDefinition, ds | .inputFieldsDefinition, ds => parts .inputValueDefinition ds
  | .fieldDefinition, d =>
    parts .stringValue d.description.toList ++ parts .inputValueDefinition d.arguments ++
      d.type.own ++ parts .directive d.directives
  | .fieldsDefinition, ds => parts .fieldDefinition ds
  | .enumValueDefinition, d =>
    parts .stringValue d.description.toList ++ parts .directive d.directives
  | .enumValuesDefinition, ds => parts .enumValueDefinition ds
  | .implementsInterfaces, ns | .unionMemberTypes, ns => parts .typeName ns
  | .typeDefinition, d | .typeDefinitionOf _, d => d.children
  | .rootOperationType, d => [⟨.typeName, d.type⟩]
  | .rootOperationTypes, ds => parts .rootOperationType ds
  | .schemaDefinition, d =>
    parts .stringValue d.description.toList ++ parts .directive d.directives ++
      parts .rootOperationType d.operationTypes
  | .directiveDefinition, d =>
    parts .stringValue d.description.toList ++ parts .inputValueDefinition d.arguments
  | .definition, d => [d.part]
  | .document, d => parts .definition d.definitions

namespace Part

def children (x : Part) : List Part :=
  x.production.children x.node

/-- Whether the node is a selection set that is not there. -/
def isAbsent : Part → Bool
  | ⟨.selectionSet, s⟩ => Bracketed.isAbsent s
  | _ => false

/-- The node is the other one, or it is within a child of that. -/
inductive IsWithin (x : Part) : Part → Prop
  | refl : IsWithin x x
  | child {y z : Part} : y ∈ z.children → IsWithin x y → IsWithin x z

theorem children_of_isAbsent {x : Part} (h : x.isAbsent = true) : x.children = [] := by
  unfold isAbsent at h
  split at h
  · next s =>
    obtain ⟨items, span⟩ := s
    simp only [Bracketed.isAbsent, Bool.and_eq_true, List.isEmpty_iff] at h
    rw [children, Production.children, h.1, List.flatMap_nil]
  · cases h

end Part

end GraphQLText
