import GraphQLText.TypeRef.Basic
import GraphQLText.Value.Layout

/-!
# Writing type references
-/

namespace GraphQLText.TypeRef

set_option autoImplicit false

def layout : TypeRef → Layout
  | named n => n.layout
  | list inner => .mark .openBracket :: inner.layout ++ [.mark .closeBracket]
  | nonNull inner => inner.layout ++ [.mark .bang]

end GraphQLText.TypeRef
