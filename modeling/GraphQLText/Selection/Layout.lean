import GraphQLText.Directive.Layout
import GraphQLText.Selection.Basic

/-!
# Writing selections

Selections stand on lines of their own, one level deeper than the node that they belong to.
-/

namespace GraphQLText

set_option autoImplicit false

def FragmentSpread.layout (level : Nat) (s : FragmentSpread) : Layout :=
  .mark .ellipsis :: s.name.layout ++ Directive.layoutAll level s.directives

def FieldOf.headLayout {σ : Type} (level : Nat) (f : FieldOf σ) : Layout :=
  (match f.aliasName with
    | some a => [.name a, .mark .colon, .space]
    | none => []) ++
    .name f.name :: Argument.layoutAll level f.arguments ++
    Directive.layoutAll level f.directives

def InlineFragmentOf.headLayout {σ : Type} (level : Nat) (f : InlineFragmentOf σ) : Layout :=
  .mark .ellipsis ::
    (match f.typeCondition with
      | some n => .space :: .name "on" :: .space :: n.layout
      | none => []) ++
    Directive.layoutAll level f.directives

namespace Selection

mutual

def layout (level : Nat) : Selection → Layout
  | .field ⟨a, name, arguments, directives, ⟨items, p⟩, s⟩ =>
    FieldOf.headLayout level
      (⟨a, name, arguments, directives, ⟨items, p⟩, s⟩ : FieldOf Selection) ++
      Layout.body level (layouts (level + 1) items)
  | .spread s => s.layout level
  | .inline ⟨condition, directives, ⟨items, p⟩, s⟩ =>
    InlineFragmentOf.headLayout level
      (⟨condition, directives, ⟨items, p⟩, s⟩ : InlineFragmentOf Selection) ++
      Layout.body level (layouts (level + 1) items)

def layouts (level : Nat) : List Selection → List Layout
  | [] => []
  | s :: ss => layout level s :: layouts level ss

end

theorem layouts_eq_map (level : Nat) (ss : List Selection) :
    layouts level ss = ss.map (layout level) := by
  induction ss with
  | nil => rfl
  | cons s ss ih => simp [layouts, ih]

end Selection

def Field.layout (level : Nat) (f : Field) : Layout :=
  (Selection.field f).layout level

def InlineFragment.layout (level : Nat) (f : InlineFragment) : Layout :=
  (Selection.inline f).layout level

def SelectionSet.layout (level : Nat) (s : SelectionSet) : Layout :=
  Layout.braced level (s.items.map (Selection.layout (level + 1)))

def SelectionSet.bodyLayout (level : Nat) (s : SelectionSet) : Layout :=
  Layout.body level (s.items.map (Selection.layout (level + 1)))

end GraphQLText
