import GraphQLText.Selection.Basic
import GraphQLText.TypeRef.Basic

/-!
# Operations and fragments

The definitions that can be executed.
-/

namespace GraphQLText

set_option autoImplicit false

inductive OperationKind
  | query
  | mutation
  | subscription
deriving DecidableEq, Repr, Inhabited

namespace OperationKind

def keyword : OperationKind → String
  | query => "query"
  | mutation => "mutation"
  | subscription => "subscription"

def ofKeyword? : String → Option OperationKind
  | "query" => some query
  | "mutation" => some mutation
  | "subscription" => some subscription
  | _ => none

theorem ofKeyword?_eq_some_iff {keyword : String} {kind : OperationKind} :
    ofKeyword? keyword = some kind ↔ keyword = kind.keyword := by
  constructor
  · intro h
    unfold ofKeyword? at h
    split at h <;> simp_all <;> subst h <;> rfl
  · rintro rfl
    cases kind <;> rfl

end OperationKind

structure VariableDefinition where
  var : Variable
  type : TypeRef
  default : Option Value
  directives : List Directive
  span : Span
deriving DecidableEq, Repr, Inhabited

structure OperationDefinition where
  kind : OperationKind
  name : Option TypeName
  variableDefinitions : List VariableDefinition
  directives : List Directive
  selections : SelectionSet
  span : Span
deriving DecidableEq, Repr, Inhabited

structure FragmentDefinition where
  name : TypeName
  typeCondition : TypeName
  directives : List Directive
  selections : SelectionSet
  span : Span
deriving DecidableEq, Repr, Inhabited

namespace OperationDefinition

/-- Whether the operation is written as its selections alone: it is a query, and there is nothing
else to write. -/
def isShorthand (o : OperationDefinition) : Bool :=
  o.kind = .query && o.name.isNone && o.variableDefinitions.isEmpty && o.directives.isEmpty

/-- An operation that is written as its selections is a query without anything else. -/
theorem parts_of_isShorthand {o : OperationDefinition} (h : o.isShorthand = true) :
    o.kind = .query ∧ o.name = none ∧ o.variableDefinitions = [] ∧ o.directives = [] := by
  simp only [isShorthand, Bool.and_eq_true, decide_eq_true_eq, Option.isNone_iff_eq_none,
    List.isEmpty_iff] at h
  exact ⟨h.1.1.1, h.1.1.2, h.1.2, h.2⟩

end OperationDefinition

instance : HasShape OperationKind where
  reshape _ kind := kind
  reshape_reshape _ _ _ := rfl

instance : HasShape VariableDefinition where
  reshape flag d :=
    ⟨reshape flag d.var, reshape flag d.type, reshape flag d.default, reshape flag d.directives,
      Span.zero⟩
  reshape_reshape _ _ _ := by simp [reshape_reshape]

instance : HasShape OperationDefinition where
  reshape flag o :=
    ⟨o.kind, reshape flag o.name, reshape flag o.variableDefinitions, reshape flag o.directives,
      reshape flag o.selections, Span.zero⟩
  reshape_reshape _ _ _ := by simp [reshape_reshape]

instance : HasShape FragmentDefinition where
  reshape flag f :=
    ⟨reshape flag f.name, reshape flag f.typeCondition, reshape flag f.directives,
      reshape flag f.selections, Span.zero⟩
  reshape_reshape _ _ _ := by simp [reshape_reshape]

end GraphQLText
