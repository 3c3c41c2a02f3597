import GraphQLText.Document.Layout
import GraphQLText.Proofs.Writing.Phrase

/-!
# The phrases that nodes are written with

Each node is written with the phrases of its parts and with marks and keywords around them. Gaps
have gone from these equations, and with them the depth at which a mark stands.
-/

namespace GraphQLText

set_option autoImplicit false

open Layout (phrases)

variable (level : Nat)

theorem StringValue.phrase_layout (s : StringValue) : (s.layout level).phrase =
    [.need (if s.isBlock then .blockString s.value else .string s.value)] := by
  unfold layout
  split <;> rfl

theorem Value.phrase_layout_list (l : ListValue) : ((Value.list l).layout level).phrase =
    .mark .openBracket :: (phrases (l.items.map (layout level)) ++ [.mark .closeBracket]) := by
  rw [layout, itemLayouts_eq_map, Layout.phrase_enclosed]

theorem Value.phrase_layout_object (o : ObjectValue) : ((Value.object o).layout level).phrase =
    .mark .openBrace :: (phrases (o.items.map (NamedValue.layout level)) ++
      [.mark .closeBrace]) := by
  rw [layout, fieldLayouts_eq_map, Layout.phrase_enclosed]

theorem NamedValue.phrase_layout (f : NamedValue Value) : (f.layout level).phrase =
    .name f.name :: .mark .colon :: (f.value.layout level).phrase := rfl

theorem Argument.phrase_layoutAll (arguments : List Argument) :
    (Argument.layoutAll level arguments).phrase =
      if arguments.isEmpty then []
      else .mark .openParen :: (phrases (arguments.map (NamedValue.layout level)) ++
        [.mark .closeParen]) := by
  rw [layoutAll, apply_ite Layout.phrase, Layout.phrase_enclosed, Layout.phrase_nil]

theorem Value.phrase_defaultLayout (default : Option Value) :
    (Value.defaultLayout level default).phrase =
      default.elim [] fun v => .mark .equals :: (v.layout level).phrase := by
  cases default <;> rfl

theorem Directive.phrase_layout (d : Directive) : (d.layout level).phrase =
    .mark .atSign :: .name d.name :: (Argument.layoutAll level d.arguments).phrase := rfl

theorem Directive.phrase_layoutAll (ds : List Directive) :
    (Directive.layoutAll level ds).phrase = phrases (ds.map (Directive.layout level)) := by
  rw [layoutAll, ← Layout.phrase_flatMap_cons .space rfl, List.flatMap_map]

theorem TypeRef.phrase_layout_list (t : TypeRef) : (TypeRef.list t).layout.phrase =
    .mark .openBracket :: (t.layout.phrase ++ [.mark .closeBracket]) := by
  rw [layout, Layout.phrase_append]
  rfl

theorem TypeRef.phrase_layout_nonNull (t : TypeRef) : (TypeRef.nonNull t).layout.phrase =
    t.layout.phrase ++ [.mark .bang] := by
  rw [layout, Layout.phrase_append]
  rfl

theorem FragmentSpread.phrase_layout (s : FragmentSpread) : (s.layout level).phrase =
    .mark .ellipsis :: .name s.name.name :: (Directive.layoutAll level s.directives).phrase := by
  rw [layout, Layout.phrase_append]
  rfl

theorem Selection.phrase_layout_field (f : Field) : ((Selection.field f).layout level).phrase =
    f.aliasName.elim [] (fun a => [.name a, .mark .colon]) ++ .name f.name ::
      ((Argument.layoutAll level f.arguments).phrase ++
        ((Directive.layoutAll level f.directives).phrase ++
          (SelectionSet.bodyLayout level f.selections).phrase)) := by
  obtain ⟨aliasName, name, arguments, directives, ⟨items, p⟩, span⟩ := f
  rw [layout, layouts_eq_map, Layout.phrase_append, FieldOf.headLayout]
  cases aliasName <;> simp [SelectionSet.bodyLayout]

theorem Selection.phrase_layout_inline (f : InlineFragment) :
    ((Selection.inline f).layout level).phrase =
      .mark .ellipsis :: (f.typeCondition.elim [] (fun n => [.name "on", .name n.name]) ++
        ((Directive.layoutAll level f.directives).phrase ++
          (SelectionSet.bodyLayout level f.selections).phrase)) := by
  obtain ⟨condition, directives, ⟨items, p⟩, span⟩ := f
  rw [layout, layouts_eq_map, Layout.phrase_append, InlineFragmentOf.headLayout]
  cases condition <;> simp [SelectionSet.bodyLayout, TypeName.layout]

theorem SelectionSet.phrase_bodyLayout (s : SelectionSet) :
    (SelectionSet.bodyLayout level s).phrase =
      if s.items.isEmpty then []
      else .mark .openBrace :: (phrases (s.items.map (Selection.layout (level + 1))) ++
        [.mark .closeBrace]) :=
  Layout.phrase_body_map level _ s.items

theorem SelectionSet.phrase_layout (s : SelectionSet) :
    (SelectionSet.layout level s).phrase = (SelectionSet.bodyLayout level s).phrase :=
  (Layout.phrase_body level _).symm

theorem VariableDefinition.phrase_layout (d : VariableDefinition) : (d.layout level).phrase =
    [.mark .dollar, .name d.var.name] ++ .mark .colon :: (d.type.layout.phrase ++
      ((Value.defaultLayout level d.default).phrase ++
        (Directive.layoutAll level d.directives).phrase)) := by
  simp [layout, Variable.layout]

theorem VariableDefinition.phrase_layoutAll (ds : List VariableDefinition) :
    (VariableDefinition.layoutAll level ds).phrase =
      if ds.isEmpty then []
      else .mark .openParen :: (phrases (ds.map (VariableDefinition.layout level)) ++
        [.mark .closeParen]) := by
  rw [layoutAll, apply_ite Layout.phrase, Layout.phrase_enclosed, Layout.phrase_nil]

theorem OperationDefinition.phrase_layout_shorthand {o : OperationDefinition}
    (h : o.isShorthand = true) :
    (o.layout level).phrase = (SelectionSet.bodyLayout level o.selections).phrase := by
  rw [layout, if_pos h, SelectionSet.phrase_layout]

theorem OperationDefinition.phrase_layout_long {o : OperationDefinition}
    (h : o.isShorthand = false) : (o.layout level).phrase =
      .name o.kind.keyword :: (o.name.elim [] (fun n => [.name n.name]) ++
        ((VariableDefinition.layoutAll level o.variableDefinitions).phrase ++
          ((Directive.layoutAll level o.directives).phrase ++
            (SelectionSet.bodyLayout level o.selections).phrase))) := by
  have hname : o.nameLayout.phrase = o.name.elim [] fun n => [.name n.name] := by
    unfold nameLayout
    cases o.name with
    | none => simp only; split <;> rfl
    | some n => rfl
  simp only [layout, h, Bool.false_eq_true, if_false, OperationKind.layout, List.append_assoc,
    List.cons_append, List.nil_append, Layout.phrase_word, Layout.phrase_append, hname]

theorem FragmentDefinition.phrase_layout (f : FragmentDefinition) : (f.layout level).phrase =
    .name "fragment" :: .name f.name.name :: .name "on" :: .name f.typeCondition.name ::
      ((Directive.layoutAll level f.directives).phrase ++
        (SelectionSet.bodyLayout level f.selections).phrase) := by
  simp only [layout, TypeName.layout, List.cons_append, List.nil_append, Layout.phrase_word,
    Layout.phrase_space, Layout.phrase_append]

theorem StringValue.phrase_descriptionLayout (description : Option StringValue) :
    (descriptionLayout level description).phrase =
      description.elim [] fun s => (s.layout level).phrase := by
  cases description with
  | none => rfl
  | some s => simp [descriptionLayout]

theorem InputValueDefinition.phrase_layout (d : InputValueDefinition) : (d.layout level).phrase =
    (StringValue.descriptionLayout level d.description).phrase ++ .name d.name :: .mark .colon ::
      (d.type.layout.phrase ++ ((Value.defaultLayout level d.default).phrase ++
        (Directive.layoutAll level d.directives).phrase)) := by
  simp only [layout, List.append_assoc, List.cons_append, Layout.phrase_word, Layout.phrase_space,
    Layout.phrase_append]

/-- Arguments of which one is described are written deeper than others. -/
theorem InputValueDefinition.phrase_argumentsLayout (ds : List InputValueDefinition) :
    ∃ depth, (argumentsLayout level ds).phrase =
      if ds.isEmpty then []
      else .mark .openParen :: (phrases (ds.map (InputValueDefinition.layout depth)) ++
        [.mark .closeParen]) := by
  unfold argumentsLayout
  split
  · next h => exact ⟨level, rfl⟩
  · split
    · exact ⟨level + 1, Layout.phrase_stacked _ _ _ _⟩
    · exact ⟨level, Layout.phrase_enclosed _ _ _⟩

theorem FieldDefinition.phrase_layout (d : FieldDefinition) : (d.layout level).phrase =
    (StringValue.descriptionLayout level d.description).phrase ++ .name d.name ::
      ((InputValueDefinition.argumentsLayout level d.arguments).phrase ++ .mark .colon ::
        (d.type.layout.phrase ++ (Directive.layoutAll level d.directives).phrase)) := by
  simp only [layout, List.append_assoc, List.cons_append, Layout.phrase_word, Layout.phrase_space,
    Layout.phrase_append]

theorem EnumValueDefinition.phrase_layout (d : EnumValueDefinition) : (d.layout level).phrase =
    (StringValue.descriptionLayout level d.description).phrase ++ .name d.name ::
      (Directive.layoutAll level d.directives).phrase := by
  simp only [layout, Layout.phrase_word, Layout.phrase_append]

theorem TypeName.phrase_interfacesLayout (interfaces : List TypeName) :
    (interfacesLayout interfaces).phrase =
      if interfaces.isEmpty then []
      else .name "implements" :: (listLayout .ampersand interfaces).phrase := by
  rw [interfacesLayout, apply_ite Layout.phrase]
  rfl

theorem TypeContent.phrase_tailLayout_union (members : List TypeName) :
    ((TypeContent.union members).tailLayout level).phrase =
      if members.isEmpty then []
      else .mark .equals :: (TypeName.listLayout .pipe members).phrase := by
  rw [tailLayout, apply_ite Layout.phrase]
  rfl

theorem TypeDefinition.phrase_layout (d : TypeDefinition) : (d.layout level).phrase =
    (StringValue.descriptionLayout level d.description).phrase ++ .name d.kind.keyword ::
      .name d.name.name :: (d.content.headLayout.phrase ++
        ((Directive.layoutAll level d.directives).phrase ++
          (d.content.tailLayout level).phrase)) := by
  simp only [layout, TypeName.layout, List.append_assoc, List.cons_append, List.nil_append,
    Layout.phrase_word, Layout.phrase_space, Layout.phrase_append]

theorem RootOperationType.phrase_layout (d : RootOperationType) : d.layout.phrase =
    [.name d.kind.keyword, .mark .colon, .name d.type.name] := rfl

theorem SchemaDefinition.phrase_layout (d : SchemaDefinition) : (d.layout level).phrase =
    (StringValue.descriptionLayout level d.description).phrase ++ .name "schema" ::
      ((Directive.layoutAll level d.directives).phrase ++
        (Layout.body level (d.operationTypes.map RootOperationType.layout)).phrase) := by
  simp only [layout, List.append_assoc, List.cons_append, Layout.phrase_word, Layout.phrase_append]

theorem DirectiveDefinition.phrase_layout (d : DirectiveDefinition) : (d.layout level).phrase =
    (StringValue.descriptionLayout level d.description).phrase ++ .name "directive" ::
      .mark .atSign :: .name d.name ::
        ((InputValueDefinition.argumentsLayout level d.arguments).phrase ++
          ((if d.repeatable then [.name "repeatable"] else []) ++ .name "on" ::
            (Layout.separated [.space, .mark .pipe, .space]
              (d.locations.map DirectiveLocation.layout)).phrase)) := by
  have hrepeatable : Layout.phrase (if d.repeatable then [.space, .name "repeatable"] else []) =
      if d.repeatable then [.name "repeatable"] else [] := by
    split <;> rfl
  simp only [layout, List.append_assoc, List.cons_append, Layout.phrase_word, Layout.phrase_space,
    Layout.phrase_append, hrepeatable]

theorem Document.phrase_layout (d : Document) :
    (d.layout level).phrase = phrases (d.definitions.map (Definition.layout level)) :=
  Layout.phrase_separated rfl _

end GraphQLText
