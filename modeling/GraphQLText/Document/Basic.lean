import GraphQLText.TypeSystem.Basic

/-!
# Documents

A document is a sequence of definitions: operations and fragments, the parts of a schema, and
extensions of them.
-/

namespace GraphQLText

set_option autoImplicit false

inductive Definition
  | operation (d : OperationDefinition)
  | fragment (d : FragmentDefinition)
  | schema (d : SchemaDefinition)
  | type (d : TypeDefinition)
  | directive (d : DirectiveDefinition)
  | schemaExtension (d : SchemaDefinition)
  | typeExtension (d : TypeDefinition)
deriving DecidableEq, Repr, Inhabited

structure Document where
  definitions : List Definition
  /-- About how many bytes the document takes when it is written. -/
  sizeHint : Nat
  span : Span
deriving DecidableEq, Repr, Inhabited

def Document.empty : Document :=
  ⟨[], 0, Span.zero⟩

namespace Definition

def span : Definition → Span
  | operation d => d.span
  | fragment d => d.span
  | schema d | schemaExtension d => d.span
  | type d | typeExtension d => d.span
  | directive d => d.span

def isExtension : Definition → Bool
  | schemaExtension _ | typeExtension _ => true
  | _ => false

def operation? : Definition → Option OperationDefinition
  | operation d => some d
  | _ => none

def fragment? : Definition → Option FragmentDefinition
  | fragment d => some d
  | _ => none

/-- The type that the definition defines or extends. -/
def type? : Definition → Option TypeDefinition
  | type d | typeExtension d => some d
  | _ => none

end Definition

def Definition.restyle (flag : String → Bool → Bool) : Definition → Definition
  | .operation d => .operation (reshape flag d)
  | .fragment d => .fragment (reshape flag d)
  | .schema d => .schema (reshape flag d)
  | .type d => .type (reshape flag d)
  | .directive d => .directive (reshape flag d)
  | .schemaExtension d => .schemaExtension (reshape flag d)
  | .typeExtension d => .typeExtension (reshape flag d)

instance : HasShape Definition where
  reshape := Definition.restyle
  reshape_reshape _ _ d := by cases d <;> simp [Definition.restyle, reshape_reshape]

instance : HasShape Document where
  reshape flag d := ⟨reshape flag d.definitions, 0, Span.zero⟩
  reshape_reshape _ _ _ := by simp [reshape_reshape]

end GraphQLText
