import GraphQLText.Value.Basic

/-!
# Type references

How a place that holds values names their type: a type, a list of them, or either without null.
-/

namespace GraphQLText

set_option autoImplicit false

inductive TypeRef
  | named (n : TypeName)
  | list (inner : TypeRef)
  | nonNull (inner : TypeRef)
deriving DecidableEq, Repr, Inhabited

namespace TypeRef

/-- The type that a reference comes down to without its lists and marks. -/
def innermost : TypeRef → TypeName
  | named n => n
  | list inner => inner.innermost
  | nonNull inner => inner.innermost

def unplaced : TypeRef → TypeRef
  | named n => named { n with span := Span.zero }
  | list inner => list inner.unplaced
  | nonNull inner => nonNull inner.unplaced

theorem unplaced_unplaced (t : TypeRef) : t.unplaced.unplaced = t.unplaced := by
  induction t with
  | named n => rfl
  | list inner ih => simp [unplaced, ih]
  | nonNull inner ih => simp [unplaced, ih]

end TypeRef

instance : HasShape TypeRef where
  reshape _ := TypeRef.unplaced
  reshape_reshape _ _ := TypeRef.unplaced_unplaced

end GraphQLText
