import GraphQLText.Operation.Basic
import GraphQLText.Proofs.Grammar.Value

/-!
# The grammar of executable definitions

The phrases that spell selections, operations and fragments. The keyword `query` is spare right
before the brace of the selections.
-/

namespace GraphQLText

set_option autoImplicit false

inductive FieldOf.Label : Phrase → Option String → Prop
  | absent : Label [] none
  | present (a : String) : Label [.name a, .mark .colon] (some a)

/-- A field, given the grammar of the selections below it. -/
inductive FieldOf.Derives {σ : Type} (G : Phrase → σ → Prop) : Phrase → FieldOf σ → Prop
  | intro {label u v w : Phrase} (f : FieldOf σ) : FieldOf.Label label f.aliasName →
      Argument.DerivesAll false u f.arguments → Directive.DerivesAll false v f.directives →
      Enclosed .openBrace .closeBrace G w f.selections.items →
      Derives G (label ++ .name f.name :: (u ++ (v ++ w))) f

inductive FragmentSpread.Derives : Phrase → FragmentSpread → Prop
  | intro {v : Phrase} (s : FragmentSpread) : s.name.name ≠ "on" →
      Directive.DerivesAll false v s.directives →
      Derives (.mark .ellipsis :: .name s.name.name :: v) s

inductive InlineFragmentOf.Derives {σ : Type} (G : Phrase → σ → Prop) :
    Phrase → InlineFragmentOf σ → Prop
  | intro {u v w : Phrase} (f : InlineFragmentOf σ) :
      Behind (.name "on") TypeName.Derives u f.typeCondition →
      Directive.DerivesAll false v f.directives →
      Enclosed .openBrace .closeBrace G w f.selections.items → f.selections.items ≠ [] →
      Derives G (.mark .ellipsis :: (u ++ (v ++ w))) f

inductive Selection.Derives : Phrase → Selection → Prop
  | field {u : Phrase} {f : Field} : FieldOf.Derives Derives u f → Derives u (.field f)
  | spread {u : Phrase} {s : FragmentSpread} : FragmentSpread.Derives u s →
      Derives u (.spread s)
  | inline {u : Phrase} {f : InlineFragment} : InlineFragmentOf.Derives Derives u f →
      Derives u (.inline f)

abbrev SelectionSet.Derives (ws : Phrase) (s : SelectionSet) : Prop :=
  Enclosed .openBrace .closeBrace Selection.Derives ws s.items

inductive VariableDefinition.Derives : Phrase → VariableDefinition → Prop
  | intro {u t v w : Phrase} (d : VariableDefinition) : Variable.Derives u d.var →
      TypeRef.Derives t d.type → Value.DerivesDefault v d.default →
      Directive.DerivesAll true w d.directives →
      Derives (u ++ .mark .colon :: (t ++ (v ++ w))) d

inductive OperationDefinition.Derives : Phrase → OperationDefinition → Prop
  | shorthand {w : Phrase} (o : OperationDefinition) : o.isShorthand = true →
      SelectionSet.Derives w o.selections → o.selections.items ≠ [] → Derives w o
  | long {n u v w : Phrase} {spare : Bool} (o : OperationDefinition) :
      Perhaps TypeName.Derives n o.name →
      Enclosed .openParen .closeParen VariableDefinition.Derives u o.variableDefinitions →
      Directive.DerivesAll false v o.directives →
      SelectionSet.Derives w o.selections → o.selections.items ≠ [] →
      (spare = true ↔ o.kind = .query ∧ Phrase.IsBraced (n ++ (u ++ (v ++ w)))) →
      Derives (⟨.name o.kind.keyword, spare⟩ :: (n ++ (u ++ (v ++ w)))) o

/-- The keyword of an operation is spare exactly if the operation is written without it. -/
theorem OperationDefinition.isShorthand_iff_isBraced {o : OperationDefinition} {n u v w : Phrase}
    (hn : Perhaps TypeName.Derives n o.name)
    (hu : Enclosed .openParen .closeParen VariableDefinition.Derives u o.variableDefinitions)
    (hv : Directive.DerivesAll false v o.directives) (hw : SelectionSet.Derives w o.selections)
    (hne : o.selections.items ≠ []) :
    o.isShorthand = true ↔ o.kind = .query ∧ Phrase.IsBraced (n ++ (u ++ (v ++ w))) := by
  obtain ⟨kind, name, definitions, directives, ⟨items, p⟩, span⟩ := o
  cases hn with
  | present hname => cases hname; simp [isShorthand, Phrase.IsBraced]
  | absent =>
    cases hu with
    | present _ hdefinitions => simp [isShorthand, Phrase.IsBraced, hdefinitions]
    | absent =>
      cases hv with
      | cons hdirective _ => cases hdirective; simp [isShorthand, Phrase.IsBraced]
      | nil =>
        cases hw with
        | absent => exact absurd rfl hne
        | present => simp [isShorthand, Phrase.IsBraced]

inductive FragmentDefinition.Derives : Phrase → FragmentDefinition → Prop
  | intro {v w : Phrase} (f : FragmentDefinition) : f.name.name ≠ "on" →
      Directive.DerivesAll false v f.directives →
      SelectionSet.Derives w f.selections → f.selections.items ≠ [] →
      Derives (.name "fragment" :: .name f.name.name :: .name "on" ::
        .name f.typeCondition.name :: (v ++ w)) f

end GraphQLText
