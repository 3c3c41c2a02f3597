import GraphQLText.Text.Span

/-!
# Shapes of nodes

A node keeps where it stands in a source, and a string whether it was written as a block. The shape
of a node is the node without such memories, so two sources say the same thing when their nodes
have one shape.
-/

namespace GraphQLText

set_option autoImplicit false

/-- Nodes that remember how they were written. -/
class HasShape (α : Type) where
  /-- The node without its spans, where each string is a block or not as `flag` has it, given its
  text and what it was. -/
  reshape : (String → Bool → Bool) → α → α
  reshape_reshape : ∀ (f g : String → Bool → Bool) (a : α),
    reshape f (reshape g a) = reshape (fun text block => f text (g text block)) a

namespace HasShape

/-- The node as one that was never written down. -/
def shape {α : Type} [HasShape α] (a : α) : α :=
  reshape (fun _ _ => false) a

/-- The node without its spans. -/
def bare {α : Type} [HasShape α] (a : α) : α :=
  reshape (fun _ block => block) a

end HasShape

export HasShape (reshape reshape_reshape shape bare)

theorem shape_reshape {α : Type} [HasShape α] (flag : String → Bool → Bool) (a : α) :
    shape (reshape flag a) = shape a :=
  reshape_reshape _ flag a

theorem shape_bare {α : Type} [HasShape α] (a : α) : shape (bare a) = shape a :=
  shape_reshape _ a

theorem bare_reshape {α : Type} [HasShape α] (flag : String → Bool → Bool) (a : α) :
    bare (reshape flag a) = reshape flag a :=
  reshape_reshape _ flag a

instance {α : Type} [HasShape α] : HasShape (Option α) where
  reshape flag := Option.map (reshape flag)
  reshape_reshape f g a := by
    simp [Function.comp_def, reshape_reshape]

instance {α : Type} [HasShape α] : HasShape (List α) where
  reshape flag := List.map (reshape flag)
  reshape_reshape f g a := by
    simp [Function.comp_def, reshape_reshape]

section Containers

variable {α : Type} [HasShape α] (flag : String → Bool → Bool)

@[simp] theorem reshape_nil : reshape flag ([] : List α) = [] := rfl

@[simp] theorem reshape_cons (a : α) (as : List α) :
    reshape flag (a :: as) = reshape flag a :: reshape flag as := rfl

@[simp] theorem reshape_none : reshape flag (none : Option α) = none := rfl

@[simp] theorem reshape_some (a : α) : reshape flag (some a) = some (reshape flag a) := rfl

theorem reshape_eq_map (as : List α) : reshape flag as = as.map (reshape flag) := rfl

@[simp] theorem bare_nil : bare ([] : List α) = [] := rfl

@[simp] theorem bare_cons (a : α) (as : List α) : bare (a :: as) = bare a :: bare as := rfl

@[simp] theorem bare_none : bare (none : Option α) = none := rfl

@[simp] theorem bare_some (a : α) : bare (some a) = some (bare a) := rfl

end Containers

/-- Whether two nodes say the same thing. -/
def sameShape {α : Type} [HasShape α] [DecidableEq α] (a b : α) : Bool :=
  shape a = shape b

theorem sameShape_iff {α : Type} [HasShape α] [DecidableEq α] {a b : α} :
    sameShape a b = true ↔ shape a = shape b := by
  simp [sameShape]

end GraphQLText
