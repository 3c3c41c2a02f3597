import GraphQLText.Value.Basic

/-!
# Directives

A directive attaches arguments under a name to another node.
-/

namespace GraphQLText

set_option autoImplicit false

structure Directive where
  name : String
  arguments : List Argument
  span : Span
deriving DecidableEq, Repr, Inhabited

instance : HasShape Directive where
  reshape flag d := ⟨d.name, reshape flag d.arguments, Span.zero⟩
  reshape_reshape _ _ _ := by simp [reshape_reshape]

end GraphQLText
