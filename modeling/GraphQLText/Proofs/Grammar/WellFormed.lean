import GraphQLText.Document.Basic
import GraphQLText.Proofs.Lexing.Stream
import GraphQLText.Value.Reader

/-!
# Well-formed nodes

The nodes that sources can spell, given by what each must have: names that are names, numbers that
are numbers, and the parts that a node cannot be written without. Strings may hold any text.
-/

namespace GraphQLText

set_option autoImplicit false

def TypeName.WellFormed (n : TypeName) : Prop :=
  isName n.name = true

instance (n : TypeName) : Decidable n.WellFormed :=
  inferInstanceAs (Decidable (_ = true))

def Variable.WellFormed (v : Variable) : Prop :=
  isName v.name = true

instance (v : Variable) : Decidable v.WellFormed :=
  inferInstanceAs (Decidable (_ = true))

namespace Literal

def IsInt (l : Literal) : Prop :=
  Number.IsWhole l.text.toList

def IsFloat (l : Literal) : Prop :=
  Number.IsFloat l.text.toList

/-- The text is a name that does not stand for another value. -/
def IsEnum (l : Literal) : Prop :=
  isName l.text = true ∧ isEnumName l.text = true

instance (l : Literal) : Decidable l.IsEnum :=
  inferInstanceAs (Decidable (_ ∧ _))

end Literal

/-- All literals are well formed, and in a constant place there is no variable. -/
inductive Value.WellFormed (constant : Bool) : Value → Prop
  | var {v : Variable} : constant = false → v.WellFormed → WellFormed constant (.variable v)
  | int {l : Literal} : l.IsInt → WellFormed constant (.int l)
  | float {l : Literal} : l.IsFloat → WellFormed constant (.float l)
  | string (s : StringValue) : WellFormed constant (.string s)
  | boolean (b : BooleanValue) : WellFormed constant (.boolean b)
  | null : WellFormed constant .null
  | enum {l : Literal} : l.IsEnum → WellFormed constant (.enum l)
  | list (l : ListValue) : (∀ v ∈ l.items, WellFormed constant v) → WellFormed constant (.list l)
  | object (o : ObjectValue) : (∀ f ∈ o.items, isName f.name = true) →
      (∀ f ∈ o.items, WellFormed constant f.value) → WellFormed constant (.object o)

def NamedValue.WellFormed (constant : Bool) (f : NamedValue Value) : Prop :=
  isName f.name = true ∧ f.value.WellFormed constant

structure Directive.WellFormed (constant : Bool) (d : Directive) : Prop where
  name : isName d.name = true
  arguments : ∀ a ∈ d.arguments, a.WellFormed constant

/-- No mark stands behind another one. -/
inductive TypeRef.WellFormed : TypeRef → Prop
  | named {n : TypeName} : n.WellFormed → WellFormed (.named n)
  | list {t : TypeRef} : WellFormed t → WellFormed (.list t)
  | nonNull {t : TypeRef} : WellFormed t → (∀ s, t ≠ .nonNull s) → WellFormed (.nonNull t)

structure FragmentSpread.WellFormed (s : FragmentSpread) : Prop where
  name : s.name.WellFormed
  name_ne : s.name.name ≠ "on"
  directives : ∀ d ∈ s.directives, d.WellFormed false

/-- What is asked of a field apart from its selections. -/
structure FieldOf.HeadWellFormed {σ : Type} (f : FieldOf σ) : Prop where
  aliasName : ∀ a ∈ f.aliasName, isName a = true
  name : isName f.name = true
  arguments : ∀ a ∈ f.arguments, a.WellFormed false
  directives : ∀ d ∈ f.directives, d.WellFormed false

structure InlineFragmentOf.HeadWellFormed {σ : Type} (f : InlineFragmentOf σ) : Prop where
  condition : ∀ n ∈ f.typeCondition, n.WellFormed
  directives : ∀ d ∈ f.directives, d.WellFormed false
  selections : f.selections.items ≠ []

inductive Selection.WellFormed : Selection → Prop
  | field (f : Field) : f.HeadWellFormed → (∀ s ∈ f.selections.items, WellFormed s) →
      WellFormed (.field f)
  | spread {s : FragmentSpread} : s.WellFormed → WellFormed (.spread s)
  | inline (f : InlineFragment) : f.HeadWellFormed → (∀ s ∈ f.selections.items, WellFormed s) →
      WellFormed (.inline f)

structure VariableDefinition.WellFormed (d : VariableDefinition) : Prop where
  var : d.var.WellFormed
  type : d.type.WellFormed
  default : ∀ v ∈ d.default, v.WellFormed true
  directives : ∀ x ∈ d.directives, x.WellFormed true

structure OperationDefinition.WellFormed (o : OperationDefinition) : Prop where
  name : ∀ n ∈ o.name, n.WellFormed
  variableDefinitions : ∀ d ∈ o.variableDefinitions, d.WellFormed
  directives : ∀ d ∈ o.directives, d.WellFormed false
  nonempty : o.selections.items ≠ []
  selections : ∀ s ∈ o.selections.items, s.WellFormed

structure FragmentDefinition.WellFormed (f : FragmentDefinition) : Prop where
  name : f.name.WellFormed
  name_ne : f.name.name ≠ "on"
  typeCondition : f.typeCondition.WellFormed
  directives : ∀ d ∈ f.directives, d.WellFormed false
  nonempty : f.selections.items ≠ []
  selections : ∀ s ∈ f.selections.items, s.WellFormed

structure InputValueDefinition.WellFormed (d : InputValueDefinition) : Prop where
  name : isName d.name = true
  type : d.type.WellFormed
  default : ∀ v ∈ d.default, v.WellFormed true
  directives : ∀ x ∈ d.directives, x.WellFormed true

structure FieldDefinition.WellFormed (d : FieldDefinition) : Prop where
  name : isName d.name = true
  arguments : ∀ a ∈ d.arguments, a.WellFormed
  type : d.type.WellFormed
  directives : ∀ x ∈ d.directives, x.WellFormed true

structure EnumValueDefinition.WellFormed (d : EnumValueDefinition) : Prop where
  name : isName d.name = true
  isEnum : isEnumName d.name = true
  directives : ∀ x ∈ d.directives, x.WellFormed true

/-- All parts are well formed. There may be none. -/
def TypeContent.WellFormed : TypeContent → Prop
  | .scalar => True
  | .object interfaces fields | .interface interfaces fields =>
    (∀ n ∈ interfaces, n.WellFormed) ∧ ∀ f ∈ fields, f.WellFormed
  | .union members => ∀ n ∈ members, n.WellFormed
  | .enum values => ∀ v ∈ values, v.WellFormed
  | .inputObject fields => ∀ f ∈ fields, f.WellFormed

structure TypeDefinition.WellFormed (d : TypeDefinition) : Prop where
  name : d.name.WellFormed
  directives : ∀ x ∈ d.directives, x.WellFormed true
  content : d.content.WellFormed

def RootOperationType.WellFormed (d : RootOperationType) : Prop :=
  d.type.WellFormed

structure SchemaDefinition.PartsWellFormed (d : SchemaDefinition) : Prop where
  directives : ∀ x ∈ d.directives, x.WellFormed true
  operationTypes : ∀ t ∈ d.operationTypes, t.WellFormed

structure SchemaDefinition.WellFormed (d : SchemaDefinition) : Prop extends d.PartsWellFormed where
  nonempty : d.operationTypes ≠ []

structure DirectiveDefinition.WellFormed (d : DirectiveDefinition) : Prop where
  name : isName d.name = true
  arguments : ∀ a ∈ d.arguments, a.WellFormed
  nonempty : d.locations ≠ []

/-- An extension has no description and adds something. -/
def Definition.WellFormed : Definition → Prop
  | .operation d => d.WellFormed
  | .fragment d => d.WellFormed
  | .schema d => d.WellFormed
  | .type d => d.WellFormed
  | .directive d => d.WellFormed
  | .schemaExtension d => d.PartsWellFormed ∧ d.description = none ∧ d.addsNothing = false
  | .typeExtension d => d.WellFormed ∧ d.description = none ∧ d.addsNothing = false

structure Document.WellFormed (d : Document) : Prop where
  nonempty : d.definitions ≠ []
  definitions : ∀ x ∈ d.definitions, x.WellFormed

end GraphQLText
