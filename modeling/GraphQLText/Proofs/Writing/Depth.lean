import GraphQLText.Production
import GraphQLText.Proofs.Writing.Indent

/-!
# The depth that a node is written at

At another depth a node is written with the same text but for the blanks at the beginnings of its
lines. Each line but the first is moved by two blanks for a level, and empty lines stay empty.
-/

namespace GraphQLText

set_option autoImplicit false

open Text (indentLines)

open Layout

section Nodes

variable (level k : Nat)

theorem StringValue.sinks_layout (s : StringValue) :
    Sinks level (s.layout k) (s.layout (k + level)) := by
  unfold layout
  split
  · exact sinks_block k s.value
  · exact sinks_word _

theorem NamedValue.sinks_layoutWith (name : String) {value value' : Layout}
    (h : Sinks level value value') :
    Sinks level (layoutWith name value) (layoutWith name value') :=
  (h.space.word _).word _

theorem Value.sinks_layout (v : Value) : Sinks level (v.layout k) (v.layout (k + level)) := by
  induction v using Value.induction with
  | var v => exact (sinks_word _).word _
  | int | float | boolean | null | enum => exact sinks_word _
  | string s => exact s.sinks_layout level k
  | list l ih =>
    rw [layout, layout, itemLayouts_eq_map, itemLayouts_eq_map]
    exact Sinks.enclosed ih _ _
  | object o ih =>
    rw [layout, layout, fieldLayouts_eq_map, fieldLayouts_eq_map]
    exact Sinks.enclosed (fun f hf => NamedValue.sinks_layoutWith level f.name (ih f hf)) _ _

theorem NamedValue.sinks_layout (f : NamedValue Value) :
    Sinks level (f.layout k) (f.layout (k + level)) :=
  sinks_layoutWith level f.name (f.value.sinks_layout level k)

theorem Argument.sinks_layoutAll (arguments : List Argument) :
    Sinks level (layoutAll k arguments) (layoutAll (k + level) arguments) := by
  unfold layoutAll
  split
  · exact sinks_nil
  · exact Sinks.enclosed (fun a _ => a.sinks_layout level k) _ _

theorem Value.sinks_defaultLayout (default : Option Value) :
    Sinks level (defaultLayout k default) (defaultLayout (k + level) default) := by
  cases default with
  | none => exact sinks_nil
  | some v => exact ((v.sinks_layout level k).space.word _).space

theorem Directive.sinks_layout (d : Directive) :
    Sinks level (d.layout k) (d.layout (k + level)) :=
  ((Argument.sinks_layoutAll level k d.arguments).word _).word _

theorem Directive.sinks_layoutAll (ds : List Directive) :
    Sinks level (layoutAll k ds) (layoutAll (k + level) ds) :=
  Sinks.flatMap fun d _ => (d.sinks_layout level k).space

theorem TypeRef.sinks_layout (t : TypeRef) : Sinks level t.layout t.layout := by
  induction t with
  | named n => exact sinks_word _
  | list t ih => exact (ih.append (sinks_word _)).word _
  | nonNull t ih => exact ih.append (sinks_word _)

theorem FragmentSpread.sinks_layout (s : FragmentSpread) :
    Sinks level (s.layout k) (s.layout (k + level)) :=
  ((Directive.sinks_layoutAll level k s.directives).word _).word _

theorem FieldOf.sinks_headLayout {σ : Type} (f : FieldOf σ) :
    Sinks level (f.headLayout k) (f.headLayout (k + level)) := by
  have hname := (Argument.sinks_layoutAll level k f.arguments).append
    (Directive.sinks_layoutAll level k f.directives)
  unfold headLayout
  split
  · simpa using (((hname.word (.name f.name)).space.word _).word _)
  · simpa using hname.word (.name f.name)

theorem InlineFragmentOf.sinks_headLayout {σ : Type} (f : InlineFragmentOf σ) :
    Sinks level (f.headLayout k) (f.headLayout (k + level)) := by
  have hdirectives := Directive.sinks_layoutAll level k f.directives
  unfold headLayout
  split
  · exact ((((sinks_word _).space.word _).space).append hdirectives).word _
  · exact hdirectives.word _

theorem Selection.sinks_layout (s : Selection) :
    Sinks level (s.layout k) (s.layout (k + level)) := by
  induction s using Selection.induction generalizing k with
  | field f ih =>
    rw [layout, layout, layouts_eq_map, layouts_eq_map, Nat.add_right_comm k level 1]
    exact (f.sinks_headLayout level k).append (Sinks.body (fun s hs => ih s hs (k + 1)) k)
  | spread s => exact s.sinks_layout level k
  | inline f ih =>
    rw [layout, layout, layouts_eq_map, layouts_eq_map, Nat.add_right_comm k level 1]
    exact (f.sinks_headLayout level k).append (Sinks.body (fun s hs => ih s hs (k + 1)) k)

theorem SelectionSet.sinks_layout (s : SelectionSet) :
    Sinks level (s.layout k) (s.layout (k + level)) := by
  rw [layout, layout, Nat.add_right_comm k level 1]
  exact Sinks.braced (fun x _ => x.sinks_layout level (k + 1)) k

theorem SelectionSet.sinks_bodyLayout (s : SelectionSet) :
    Sinks level (s.bodyLayout k) (s.bodyLayout (k + level)) := by
  rw [bodyLayout, bodyLayout, Nat.add_right_comm k level 1]
  exact Sinks.body (fun x _ => x.sinks_layout level (k + 1)) k

theorem VariableDefinition.sinks_layout (d : VariableDefinition) :
    Sinks level (d.layout k) (d.layout (k + level)) := by
  have htype := (((d.type.sinks_layout level).space.word (.punctuator .colon)).word
    (.name d.var.name)).word (.punctuator .dollar)
  exact (htype.append (Value.sinks_defaultLayout level k d.default)).append
    (Directive.sinks_layoutAll level k d.directives)

theorem VariableDefinition.sinks_layoutAll (ds : List VariableDefinition) :
    Sinks level (layoutAll k ds) (layoutAll (k + level) ds) := by
  unfold layoutAll
  split
  · exact sinks_nil
  · exact Sinks.enclosed (fun d _ => d.sinks_layout level k) _ _

theorem OperationDefinition.sinks_nameLayout (o : OperationDefinition) :
    Sinks level o.nameLayout o.nameLayout := by
  unfold nameLayout
  split
  · exact (sinks_word _).space
  · split
    · exact sinks_nil
    · exact sinks_space

theorem OperationDefinition.sinks_layout (o : OperationDefinition) :
    Sinks level (o.layout k) (o.layout (k + level)) := by
  unfold layout
  split
  · exact o.selections.sinks_layout level k
  · exact ((((sinks_word _).append (o.sinks_nameLayout level)).append
      (VariableDefinition.sinks_layoutAll level k _)).append
      (Directive.sinks_layoutAll level k _)).append (o.selections.sinks_bodyLayout level k)

theorem FragmentDefinition.sinks_layout (f : FragmentDefinition) :
    Sinks level (f.layout k) (f.layout (k + level)) := by
  have hcondition : Sinks level (.space :: .name "on" :: .space :: f.typeCondition.layout)
      (.space :: .name "on" :: .space :: f.typeCondition.layout) :=
    ((sinks_word _).space.word _).space
  have hhead := ((sinks_word (.name f.name.name)).append hcondition).space.word (.name "fragment")
  exact (hhead.append (Directive.sinks_layoutAll level k _)).append
    (f.selections.sinks_bodyLayout level k)

/-- A description is followed by a line end, and then there must not be another one. -/
theorem StringValue.sinks_described (description : Option StringValue) {xs xs' : Layout}
    (h : Sinks level xs xs') (hopens : k = 0 → Opens xs) :
    Sinks level (descriptionLayout k description ++ xs)
      (descriptionLayout (k + level) description ++ xs') := by
  cases description with
  | none => exact h
  | some s =>
    rw [descriptionLayout, descriptionLayout, List.append_assoc, List.append_assoc]
    exact (s.sinks_layout level k).append (h.line hopens)

theorem InputValueDefinition.sinks_layout (d : InputValueDefinition) :
    Sinks level (d.layout k) (d.layout (k + level)) := by
  have htype := ((d.type.sinks_layout level).space.word (.punctuator .colon)).word (.name d.name)
  have hopens := (opens_mark .colon (.space :: d.type.layout)).name d.name
  exact ((StringValue.sinks_described level k d.description htype fun _ => hopens).append
    (Value.sinks_defaultLayout level k d.default)).append
    (Directive.sinks_layoutAll level k d.directives)

theorem InputValueDefinition.sinks_argumentsLayout (ds : List InputValueDefinition) :
    Sinks level (argumentsLayout k ds) (argumentsLayout (k + level) ds) := by
  unfold argumentsLayout
  split
  · exact sinks_nil
  · split
    · rw [Nat.add_right_comm k level 1]
      exact Sinks.stacked (fun d _ => d.sinks_layout level (k + 1)) _ _ k
    · exact Sinks.enclosed (fun d _ => d.sinks_layout level k) _ _

theorem InputValueDefinition.opens_argumentsLayout (ds : List InputValueDefinition)
    {pieces : Layout} (h : Opens pieces) : Opens (argumentsLayout k ds ++ pieces) := by
  unfold argumentsLayout
  split
  · exact h
  · split
    · exact opens_mark _ _
    · exact opens_mark _ _

theorem FieldDefinition.sinks_layout (d : FieldDefinition) :
    Sinks level (d.layout k) (d.layout (k + level)) := by
  have htype := (d.type.sinks_layout level).space.word (.punctuator .colon)
  have hhead := ((InputValueDefinition.sinks_argumentsLayout level k d.arguments).append htype).word
    (.name d.name)
  have hopens := (InputValueDefinition.opens_argumentsLayout k d.arguments
    (opens_mark .colon (.space :: d.type.layout))).name d.name
  have hwhole := (StringValue.sinks_described level k d.description hhead fun _ => hopens).append
    (Directive.sinks_layoutAll level k d.directives)
  simpa [layout] using hwhole

/-- What stands behind the description of an enum value may be nothing at all, if its name is. -/
theorem EnumValueDefinition.sinks_layout (d : EnumValueDefinition)
    (h : k = 0 → Opens (.name d.name :: Directive.layoutAll k d.directives)) :
    Sinks level (d.layout k) (d.layout (k + level)) :=
  StringValue.sinks_described level k d.description
    ((Directive.sinks_layoutAll level k d.directives).word _) h

theorem TypeName.sinks_listLayout (separator : Punctuator) (names : List TypeName) :
    Sinks level (listLayout separator names) (listLayout separator names) :=
  Sinks.marked (fun _ _ => sinks_word _) separator

theorem TypeName.sinks_interfacesLayout (interfaces : List TypeName) :
    Sinks level (interfacesLayout interfaces) (interfacesLayout interfaces) := by
  unfold interfacesLayout
  split
  · exact sinks_nil
  · exact ((sinks_listLayout level .ampersand interfaces).space.word _).space

theorem TypeContent.sinks_headLayout (content : TypeContent) :
    Sinks level content.headLayout content.headLayout := by
  cases content with
  | object interfaces _ => exact TypeName.sinks_interfacesLayout level interfaces
  | interface interfaces _ => exact TypeName.sinks_interfacesLayout level interfaces
  | _ => exact sinks_nil

theorem TypeContent.sinks_tailLayout (content : TypeContent) :
    Sinks level (content.tailLayout k) (content.tailLayout (k + level)) := by
  have hfields : ∀ fields : List FieldDefinition,
      Sinks level (body k (fields.map (FieldDefinition.layout (k + 1))))
        (body (k + level) (fields.map (FieldDefinition.layout (k + 1 + level)))) :=
    fun fields => Sinks.body (fun d _ => d.sinks_layout level (k + 1)) k
  cases content with
  | scalar => exact sinks_nil
  | union members =>
    simp only [tailLayout]
    split
    · exact sinks_nil
    · exact ((TypeName.sinks_listLayout level .pipe members).space.word _).space
  | object _ fields =>
    rw [tailLayout, tailLayout, Nat.add_right_comm k level 1]
    exact hfields fields
  | interface _ fields =>
    rw [tailLayout, tailLayout, Nat.add_right_comm k level 1]
    exact hfields fields
  | enum values =>
    rw [tailLayout, tailLayout, Nat.add_right_comm k level 1]
    exact Sinks.body (fun d _ => d.sinks_layout level (k + 1) (by simp)) k
  | inputObject fields =>
    rw [tailLayout, tailLayout, Nat.add_right_comm k level 1]
    exact Sinks.body (fun d _ => d.sinks_layout level (k + 1)) k

theorem TypeDefinition.sinks_layout (d : TypeDefinition) :
    Sinks level (d.layout k) (d.layout (k + level)) := by
  have hname : Sinks level d.name.layout d.name.layout := sinks_word _
  have hopens : Opens (.name d.kind.keyword :: .space :: d.name.layout) :=
    opens_name (by cases d.kind <;> decide) _
  exact (((StringValue.sinks_described level k d.description (hname.space.word _) fun _ =>
    hopens).append (d.content.sinks_headLayout level)).append
    (Directive.sinks_layoutAll level k d.directives)).append (d.content.sinks_tailLayout level k)

theorem RootOperationType.sinks_layout (d : RootOperationType) :
    Sinks level d.layout d.layout :=
  (sinks_word _).append ((sinks_word _).space.word _)

theorem SchemaDefinition.sinks_layout (d : SchemaDefinition) :
    Sinks level (d.layout k) (d.layout (k + level)) := by
  have hhead := (Directive.sinks_layoutAll level k d.directives).word (.name "schema")
  have hopens : Opens (.name "schema" :: Directive.layoutAll k d.directives) :=
    opens_name (by decide) _
  exact (StringValue.sinks_described level k d.description hhead fun _ => hopens).append
    (Sinks.body (fun t _ => t.sinks_layout level) k)

theorem DirectiveDefinition.sinks_layout (d : DirectiveDefinition) :
    Sinks level (d.layout k) (d.layout (k + level)) := by
  have hhead := ((((InputValueDefinition.sinks_argumentsLayout level k d.arguments).word
    (.name d.name)).word (.punctuator .atSign)).space).word (.name "directive")
  have hrepeatable : Sinks level (if d.repeatable then [.space, .name "repeatable"] else [])
      (if d.repeatable then [.space, .name "repeatable"] else []) := by
    split
    · exact (sinks_word _).space
    · exact sinks_nil
  have hplace : ∀ l ∈ d.locations, Sinks level l.layout l.layout := fun _ _ => sinks_word _
  exact ((StringValue.sinks_described level k d.description hhead
    fun _ => opens_name (by decide) _).append hrepeatable).append
    ((((Sinks.marked hplace .pipe).space.word (.name "on")).space))

theorem Definition.sinks_layout (d : Definition) :
    Sinks level (d.layout k) (d.layout (k + level)) := by
  cases d with
  | operation d => exact d.sinks_layout level k
  | fragment d => exact d.sinks_layout level k
  | schema d => exact d.sinks_layout level k
  | type d => exact d.sinks_layout level k
  | directive d => exact d.sinks_layout level k
  | schemaExtension d => exact (d.sinks_layout level k).space.word _
  | typeExtension d => exact (d.sinks_layout level k).space.word _

end Nodes

/-- What is written of a node stands `level` levels deeper in the second layout. -/
theorem Layout.Sinks.render {level : Nat} {shallow deep : Layout} (h : Sinks level shallow deep)
    (hline : shallow.OneLine) :
    deep.render.toList = indentLines (2 * level) shallow.render.toList := by
  have htext := h hline []
  rw [List.append_nil, indentLines, List.append_nil] at htext
  rw [Layout.render, Layout.render, String.toList_ofList, String.toList_ofList, htext]

/-- Of an enum value without a name and directives only its description is written, with the line
end behind it. -/
theorem EnumValueDefinition.render_bare (level : Nat) {d : EnumValueDefinition}
    (hname : d.name.toList = []) (hdirectives : d.directives = [])
    (hline : (d.layout 0).OneLine) :
    (d.layout level).render.toList = indentLines (2 * level) (d.layout 0).render.toList := by
  have htext : ∀ k, (d.layout k).render.toList =
      (StringValue.descriptionLayout k d.description).flatMap Piece.chars := by
    intro k
    simp [Layout.render, layout, hdirectives, Directive.layoutAll, Piece.chars, Token.text, hname]
  rw [htext, htext]
  cases hdescription : d.description with
  | none => rfl
  | some s =>
    rw [layout, hdescription, StringValue.descriptionLayout, oneLine_append,
      oneLine_append] at hline
    have hstring := s.sinks_layout level 0 hline.1.1 ['\n']
    rw [Nat.zero_add] at hstring
    simpa [StringValue.descriptionLayout, Piece.chars, BlockString.indentation, indentLines] using
      hstring.symm

theorem EnumValueDefinition.render_layout_eq (level : Nat) (d : EnumValueDefinition)
    (hline : (d.layout 0).OneLine) :
    (d.layout level).render.toList = indentLines (2 * level) (d.layout 0).render.toList := by
  have hsinks : Opens (.name d.name :: Directive.layoutAll 0 d.directives) →
      (d.layout level).render.toList = indentLines (2 * level) (d.layout 0).render.toList := by
    intro hopens
    have hrender := (d.sinks_layout level 0 fun _ => hopens).render hline
    rwa [Nat.zero_add] at hrender
  by_cases hname : d.name.toList = []
  · cases hdirectives : d.directives with
    | nil => exact render_bare level hname hdirectives hline
    | cons directive ds =>
      refine hsinks ?_
      rw [hdirectives]
      exact (opens_space _).name d.name
  · exact hsinks (opens_name hname _)

namespace Production

/-- At a depth a node is written as at none, but with two blanks for each level behind every line
end that another one does not follow at once. -/
theorem render_eq_indentLines {p : Production} {write : Nat → p.Node → Layout}
    (hwrite : p.layout? = some write) (hp : p ≠ .document) (node : p.Node)
    (hline : ∀ t ∈ (write 0 node).tokens, t.isString = true ∨ '\n' ∉ t.text) (level : Nat) :
    (write level node).render.toList =
      indentLines (2 * level) (write 0 node).render.toList := by
  have hrender : Sinks level (write 0 node) (write (0 + level) node) →
      (write level node).render.toList = indentLines (2 * level) (write 0 node).render.toList := by
    intro hsinks
    rw [← hsinks.render hline, Nat.zero_add]
  -- an enum value that is defined may come to its description alone, which does not sink like the rest
  cases p with
  | «variable» => cases hwrite; exact hrender ((sinks_word _).word _)
  | typeName => cases hwrite; exact hrender (sinks_word _)
  | enumValue => cases hwrite; exact hrender (sinks_word _)
  | intValue => cases hwrite; exact hrender (sinks_word _)
  | floatValue => cases hwrite; exact hrender (sinks_word _)
  | booleanValue => cases hwrite; exact hrender (sinks_word _)
  | stringValue => cases hwrite; exact hrender (StringValue.sinks_layout level 0 node)
  | value => cases hwrite; exact hrender (Value.sinks_layout level 0 node)
  | listValue => cases hwrite; exact hrender (Value.sinks_layout level 0 (.list node))
  | objectValue => cases hwrite; exact hrender (Value.sinks_layout level 0 (.object node))
  | objectField => cases hwrite; exact hrender (NamedValue.sinks_layout level 0 node)
  | argument => cases hwrite; exact hrender (NamedValue.sinks_layout level 0 node)
  | arguments => cases hwrite; exact hrender (Argument.sinks_layoutAll level 0 node)
  | directive => cases hwrite; exact hrender (Directive.sinks_layout level 0 node)
  | directives => cases hwrite; exact hrender (Directive.sinks_layoutAll level 0 node)
  | selectionSet => cases hwrite; exact hrender (SelectionSet.sinks_layout level 0 node)
  | selection => cases hwrite; exact hrender (Selection.sinks_layout level 0 node)
  | field => cases hwrite; exact hrender (Selection.sinks_layout level 0 (.field node))
  | fragmentSpread => cases hwrite; exact hrender (FragmentSpread.sinks_layout level 0 node)
  | inlineFragment => cases hwrite; exact hrender (Selection.sinks_layout level 0 (.inline node))
  | type => cases hwrite; exact hrender (TypeRef.sinks_layout level node)
  | variableDefinition =>
    cases hwrite; exact hrender (VariableDefinition.sinks_layout level 0 node)
  | variableDefinitions =>
    cases hwrite; exact hrender (VariableDefinition.sinks_layoutAll level 0 node)
  | operationKind => cases hwrite; exact hrender (sinks_word _)
  | operationDefinition =>
    cases hwrite; exact hrender (OperationDefinition.sinks_layout level 0 node)
  | fragmentDefinition =>
    cases hwrite; exact hrender (FragmentDefinition.sinks_layout level 0 node)
  | inputValueDefinition =>
    cases hwrite; exact hrender (InputValueDefinition.sinks_layout level 0 node)
  | argumentsDefinition =>
    cases hwrite; exact hrender (InputValueDefinition.sinks_argumentsLayout level 0 node)
  | inputFieldsDefinition => cases hwrite
  | fieldDefinition => cases hwrite; exact hrender (FieldDefinition.sinks_layout level 0 node)
  | fieldsDefinition => cases hwrite
  | enumValueDefinition => cases hwrite; exact EnumValueDefinition.render_layout_eq level node hline
  | enumValuesDefinition => cases hwrite
  | implementsInterfaces =>
    cases hwrite; exact hrender (TypeName.sinks_interfacesLayout level node)
  | unionMemberTypes => cases hwrite
  | typeDefinition => cases hwrite; exact hrender (TypeDefinition.sinks_layout level 0 node)
  | typeDefinitionOf kind => cases hwrite; exact hrender (TypeDefinition.sinks_layout level 0 node)
  | rootOperationType => cases hwrite; exact hrender (RootOperationType.sinks_layout level node)
  | rootOperationTypes => cases hwrite
  | schemaDefinition => cases hwrite; exact hrender (SchemaDefinition.sinks_layout level 0 node)
  | directiveLocation => cases hwrite; exact hrender (sinks_word _)
  | directiveLocations => cases hwrite
  | directiveDefinition =>
    cases hwrite; exact hrender (DirectiveDefinition.sinks_layout level 0 node)
  | definition => cases hwrite; exact hrender (Definition.sinks_layout level 0 node)
  | document => exact absurd rfl hp

/-- A field with a description in three lines, and with an argument on a line of its own. -/
theorem render_eq_indentLines_describedField :
    let node : FieldDefinition :=
      ⟨some ⟨"a\n\nb", true, .zero⟩, "f",
        [⟨some ⟨"c", false, .zero⟩, "x", .named ⟨"T", .zero⟩, none, [], .zero⟩],
        .named ⟨"T", .zero⟩, [], .zero⟩
    (∀ t ∈ (node.layout 0).tokens, t.isString = true ∨ '\n' ∉ t.text) ∧
      (node.layout 2).render.toList = indentLines 4 (node.layout 0).render.toList := by
  intro node
  have hline : ∀ t ∈ (node.layout 0).tokens, t.isString = true ∨ '\n' ∉ t.text := by
    decide
  exact ⟨hline, render_eq_indentLines (p := .fieldDefinition) rfl (by decide) node hline 2⟩

end Production

end GraphQLText
