import GraphQLText.Document.Basic
import GraphQLText.TypeSystem.Layout

/-!
# Writing documents

Definitions are written with an empty line between each and the next.
-/

namespace GraphQLText

set_option autoImplicit false

def Definition.layout (level : Nat) : Definition → Layout
  | operation d => d.layout level
  | fragment d => d.layout level
  | schema d => d.layout level
  | type d => d.layout level
  | directive d => d.layout level
  | schemaExtension d => .name "extend" :: .space :: d.layout level
  | typeExtension d => .name "extend" :: .space :: d.layout level

namespace Document

def layout (level : Nat) (d : Document) : Layout :=
  Layout.separated [.paragraph] (d.definitions.map (Definition.layout level))

def print (d : Document) : String :=
  (d.layout 0).render

end Document

end GraphQLText
