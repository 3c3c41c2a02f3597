import GraphQLText.Directive.Basic
import GraphQLText.Value.Layout

/-!
# Writing directives
-/

namespace GraphQLText.Directive

set_option autoImplicit false

def layout (level : Nat) (d : Directive) : Layout :=
  .mark .atSign :: .name d.name :: Argument.layoutAll level d.arguments

def layoutAll (level : Nat) (ds : List Directive) : Layout :=
  ds.flatMap fun d => .space :: d.layout level

end GraphQLText.Directive
