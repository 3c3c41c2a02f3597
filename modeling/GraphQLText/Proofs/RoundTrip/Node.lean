import GraphQLText.Proofs.Reading.Source
import GraphQLText.Proofs.Writing.Clean
import GraphQLText.Proofs.Writing.Derivation
import GraphQLText.Proofs.Writing.WellFormed

/-!
# Written nodes are read back

A well-formed node is read back from its text, at whatever depth it was written, and what was read
is written like the node itself. Only a whole document needs more than to be well formed.
-/

namespace GraphQLText

set_option autoImplicit false

open Reader

/-- What makes good nodes come back when they are written and read. -/
structure ReadsBack {α : Type} [HasShape α] (r : Reader α) (write : Nat → α → Layout)
    (good : α → Prop) : Prop where
  /-- A good node is written with a phrase that the reader takes whole. -/
  derives : ∃ (G : Phrase → α → Prop) (bars : α → List Token), Complete r G bars ∧
    ∀ level a, good a → G (write level a).phrase (reshape keepBlock a)
  wellFormed : ∀ level a, good a → (write level a).phrase.WellFormed
  clean : ∀ level a, (write level a).Clean
  layout_reshape : ∀ {flag view}, Blind flag view → ∀ level a,
    (write level (reshape flag a)).map view = (write level a).map view

namespace Layout

/-- The text of a clean layout with well-formed tokens is made of the tokens of its phrase. -/
theorem Clean.ofText_phrase {pieces : Layout} (h : Clean pieces)
    (ht : pieces.phrase.WellFormed) :
    pieces.phrase.tokens = (TokenStream.ofText pieces.render).kinds ∧
      (TokenStream.ofText pieces.render).isComplete = true := by
  unfold Phrase.WellFormed at ht
  rw [tokens_phrase] at ht ⊢
  obtain ⟨hkinds, hcomplete⟩ := h.ofText ht
  exact ⟨hkinds.symm, hcomplete⟩

end Layout

namespace ReadsBack

variable {α : Type} [HasShape α] {r : Reader α} {write : Nat → α → Layout} {good : α → Prop}

/-- What is read is the node itself, save where it stands and how its strings were written. -/
theorem parse_bare (h : ReadsBack r write good) (level : Nat) {a : α} (ha : good a) :
    ∃ b, r.parse (write level a).render = .ok b ∧ bare b = reshape keepBlock a := by
  obtain ⟨G, bars, hcomplete, hg⟩ := h.derives
  obtain ⟨hkinds, hends⟩ := (h.clean level a).ofText_phrase (h.wellFormed level a ha)
  obtain ⟨b, hb, hbare⟩ := hcomplete.parse (hg level a ha) hends hkinds
  exact ⟨b, hb, hbare.trans (bare_reshape keepBlock a)⟩

theorem parse (h : ReadsBack r write good) (level : Nat) {a : α} (ha : good a) :
    ∃ b, r.parse (write level a).render = .ok b ∧ shape b = shape a ∧
      ∀ l, write l b = write l a := by
  obtain ⟨b, hb, hbare⟩ := h.parse_bare level ha
  refine ⟨b, hb, ?_, fun l => ?_⟩
  · rw [← shape_bare b, hbare, shape_reshape]
  · have hb := h.layout_reshape faithful_bare.blind l b
    have ha := h.layout_reshape faithful_keepBlock.blind l a
    rw [List.map_id, List.map_id] at hb ha
    rw [← hb, ← ha, ← hbare]
    rfl

end ReadsBack

theorem Variable.readsBack :
    ReadsBack Variable.read (fun _ => Variable.layout) Variable.WellFormed where
  derives := ⟨_, _, Variable.complete_read, fun _ n _ => .intro (reshape keepBlock n)⟩
  wellFormed level _ h := Value.wellFormed_layout (.var rfl h) level
  clean level n := Value.clean_layout level (.variable n)
  layout_reshape _ _ _ := rfl

theorem TypeName.readsBack :
    ReadsBack TypeName.read (fun _ => TypeName.layout) TypeName.WellFormed where
  derives := ⟨_, _, TypeName.complete_read, fun _ n _ => .intro (reshape keepBlock n)⟩
  wellFormed _ _ h := TypeRef.wellFormed_layout (.named h)
  clean _ n := TypeRef.clean_layout (.named n)
  layout_reshape _ _ _ := rfl

theorem Literal.readsBack_enum :
    ReadsBack Literal.readEnum (fun _ => Literal.layout .name) Literal.IsEnum where
  derives := ⟨_, _, Literal.complete_readEnum, fun _ _ h => ⟨h.2, rfl⟩⟩
  wellFormed level _ h := Value.wellFormed_layout (.enum h : Value.WellFormed false _) level
  clean level l := Value.clean_layout level (.enum l)
  layout_reshape _ _ _ := rfl

theorem Literal.readsBack_int :
    ReadsBack Literal.readInt (fun _ => Literal.layout .int) Literal.IsInt where
  derives := ⟨_, _, Literal.complete_readInt, fun _ _ _ => rfl⟩
  wellFormed level _ h := Value.wellFormed_layout (.int h : Value.WellFormed false _) level
  clean level l := Value.clean_layout level (.int l)
  layout_reshape _ _ _ := rfl

theorem Literal.readsBack_float :
    ReadsBack Literal.readFloat (fun _ => Literal.layout .float) Literal.IsFloat where
  derives := ⟨_, _, Literal.complete_readFloat, fun _ _ _ => rfl⟩
  wellFormed level _ h := Value.wellFormed_layout (.float h : Value.WellFormed false _) level
  clean level l := Value.clean_layout level (.float l)
  layout_reshape _ _ _ := rfl

theorem BooleanValue.readsBack :
    ReadsBack BooleanValue.read (fun _ => BooleanValue.layout) fun _ => True where
  derives := ⟨_, _, BooleanValue.complete_read, fun _ b _ => .intro (reshape keepBlock b)⟩
  wellFormed level b _ := Value.wellFormed_layout (.boolean b : Value.WellFormed false _) level
  clean level b := Value.clean_layout level (.boolean b)
  layout_reshape _ _ _ := rfl

theorem StringValue.readsBack : ReadsBack StringValue.read StringValue.layout fun _ => True where
  derives := ⟨_, _, StringValue.complete_read, fun level s _ => s.derives_layout level⟩
  wellFormed level s _ := s.wellFormed_layout level
  clean := StringValue.clean_layout
  layout_reshape hf := hf

/-- A string of any text is read back from what is written for it, whatever the depth, and is a block
exactly if it was written as one. -/
theorem StringValue.parse_render (s : StringValue) (level : Nat) :
    ∃ t, StringValue.read.parse (s.layout level).render = .ok t ∧ t.value = s.value ∧
      t.block = s.isBlock := by
  obtain ⟨t, ht, hbare⟩ := StringValue.readsBack.parse_bare level (a := s) trivial
  have hvalue : (bare t).value = (reshape keepBlock s).value := by rw [hbare]
  have hblock : (bare t).block = (reshape keepBlock s).block := by rw [hbare]
  exact ⟨t, ht, hvalue, hblock⟩

theorem Value.readsBack (constant : Bool) :
    ReadsBack (Value.read constant) Value.layout (Value.WellFormed constant) where
  derives := ⟨_, _, Value.complete_read constant, fun level _ h => Value.derives_layout h level⟩
  wellFormed level _ h := Value.wellFormed_layout h level
  clean := Value.clean_layout
  layout_reshape := Value.layout_reshape

theorem ListValue.readsBack (constant : Bool) :
    ReadsBack (ListValue.read constant) ListValue.layout
      fun l => (Value.list l).WellFormed constant where
  derives := by
    refine ⟨_, _, ListValue.complete_read constant, fun level l h => ?_⟩
    rw [← Value.reshape_list]
    exact Value.derives_layout h level
  wellFormed level _ h := Value.wellFormed_layout h level
  clean level l := Value.clean_layout level (.list l)
  layout_reshape hf level l := by
    rw [ListValue.layout, ← Value.reshape_list]
    exact Value.layout_reshape hf level (.list l)

theorem ObjectValue.readsBack (constant : Bool) :
    ReadsBack (ObjectValue.read constant) ObjectValue.layout
      fun o => (Value.object o).WellFormed constant where
  derives := by
    refine ⟨_, _, ObjectValue.complete_read constant, fun level o h => ?_⟩
    rw [← Value.reshape_object]
    exact Value.derives_layout h level
  wellFormed level _ h := Value.wellFormed_layout h level
  clean level o := Value.clean_layout level (.object o)
  layout_reshape hf level o := by
    rw [ObjectValue.layout, ← Value.reshape_object]
    exact Value.layout_reshape hf level (.object o)

theorem NamedValue.readsBack (constant : Bool) (expected : Construct) :
    ReadsBack (NamedValue.read expected (Value.read constant)) NamedValue.layout
      (NamedValue.WellFormed constant) where
  derives := ⟨_, _, NamedValue.complete_read (Value.complete_read constant),
    fun level _ h => Argument.derives_layout level h⟩
  wellFormed level _ h := Argument.wellFormed_layout level h
  clean := NamedValue.clean_layout
  layout_reshape := NamedValue.layout_reshape

theorem Argument.readsBack_all (constant : Bool) :
    ReadsBack (Argument.readAll constant) Argument.layoutAll
      fun ns => ∀ n ∈ ns, n.WellFormed constant where
  derives := ⟨_, _, Argument.complete_readAll constant,
    fun level _ h => Argument.derives_layoutAll level h⟩
  wellFormed level _ h := Argument.wellFormed_layoutAll level h
  clean level ns := (Argument.clean_layoutAll level ns).1
  layout_reshape := Argument.layoutAll_reshape

theorem Directive.readsBack (constant : Bool) :
    ReadsBack (Directive.read constant) Directive.layout (Directive.WellFormed constant) where
  derives := ⟨_, _, Directive.complete_read constant,
    fun level _ h => Directive.derives_layout level h⟩
  wellFormed level _ h := Directive.wellFormed_layout level h
  clean := Directive.clean_layout
  layout_reshape := Directive.layout_reshape

theorem Directive.readsBack_all (constant : Bool) :
    ReadsBack (Directive.readAll constant) Directive.layoutAll
      fun ns => ∀ n ∈ ns, n.WellFormed constant where
  derives := ⟨_, _, Directive.complete_readAll constant,
    fun level _ h => Directive.derives_layoutAll level h⟩
  wellFormed level _ h := Directive.wellFormed_layoutAll level h
  clean level ns := (Directive.clean_layoutAll level ns).1
  layout_reshape := Directive.layoutAll_reshape

theorem TypeRef.readsBack :
    ReadsBack TypeRef.read (fun _ => TypeRef.layout) TypeRef.WellFormed where
  derives := ⟨_, _, TypeRef.complete_read, fun _ _ h => TypeRef.derives_layout h⟩
  wellFormed _ _ h := TypeRef.wellFormed_layout h
  clean _ := TypeRef.clean_layout
  layout_reshape _ _ t := congrArg _ t.layout_reshape

theorem SelectionSet.readsBack :
    ReadsBack SelectionSet.read SelectionSet.layout fun n => ∀ s ∈ n.items, s.WellFormed where
  derives := by
    refine ⟨_, _, SelectionSet.complete_read, fun level n h => ?_⟩
    rw [SelectionSet.phrase_layout]
    exact SelectionSet.derives_bodyLayout level h
  wellFormed level n h := by
    rw [SelectionSet.phrase_layout]
    exact SelectionSet.wellFormed_bodyLayout level h
  clean := SelectionSet.clean_layout
  layout_reshape := SelectionSet.layout_reshape

theorem Selection.readsBack :
    ReadsBack Selection.read Selection.layout Selection.WellFormed where
  derives := ⟨_, _, Selection.complete_read, fun level _ h => Selection.derives_layout level h⟩
  wellFormed level _ h := Selection.wellFormed_layout level h
  clean := Selection.clean_layout
  layout_reshape := Selection.layout_reshape

theorem Field.readsBack :
    ReadsBack Field.read Field.layout fun n => (Selection.field n).WellFormed where
  derives := by
    refine ⟨_, _, Field.complete_read, fun level n h => ?_⟩
    have hg := Selection.derives_layout level h
    rw [Selection.reshape_field] at hg
    cases hg with
    | field hf => exact hf
  wellFormed level _ h := Selection.wellFormed_layout level h
  clean level n := Selection.clean_layout level (.field n)
  layout_reshape hf level n := by
    rw [Field.layout, ← Selection.reshape_field]
    exact Selection.layout_reshape hf level (.field n)

theorem FragmentSpread.readsBack :
    ReadsBack FragmentSpread.read FragmentSpread.layout FragmentSpread.WellFormed where
  derives := ⟨_, _, FragmentSpread.complete_read,
    fun level _ h => FragmentSpread.derives_layout level h⟩
  wellFormed level _ h := FragmentSpread.wellFormed_layout level h
  clean := FragmentSpread.clean_layout
  layout_reshape := FragmentSpread.layout_reshape

theorem InlineFragment.readsBack :
    ReadsBack InlineFragment.read InlineFragment.layout
      fun n => (Selection.inline n).WellFormed where
  derives := by
    refine ⟨_, _, InlineFragment.complete_read, fun level n h => ?_⟩
    have hg := Selection.derives_layout level h
    rw [Selection.reshape_inline] at hg
    cases hg with
    | inline hf => exact hf
  wellFormed level _ h := Selection.wellFormed_layout level h
  clean level n := Selection.clean_layout level (.inline n)
  layout_reshape hf level n := by
    rw [InlineFragment.layout, ← Selection.reshape_inline]
    exact Selection.layout_reshape hf level (.inline n)

theorem VariableDefinition.readsBack :
    ReadsBack VariableDefinition.read VariableDefinition.layout
      VariableDefinition.WellFormed where
  derives := ⟨_, _, VariableDefinition.complete_read,
    fun level _ h => VariableDefinition.derives_layout level h⟩
  wellFormed level _ h := VariableDefinition.wellFormed_layout level h
  clean := VariableDefinition.clean_layout
  layout_reshape := VariableDefinition.layout_reshape

theorem VariableDefinition.readsBack_all :
    ReadsBack VariableDefinition.readAll VariableDefinition.layoutAll
      fun ns => ∀ n ∈ ns, n.WellFormed where
  derives := ⟨_, _, VariableDefinition.complete_readAll,
    fun level _ h => VariableDefinition.derives_layoutAll level h⟩
  wellFormed level _ h := VariableDefinition.wellFormed_layoutAll level h
  clean level ns := (VariableDefinition.clean_layoutAll level ns).1
  layout_reshape := VariableDefinition.layoutAll_reshape

theorem OperationKind.readsBack :
    ReadsBack OperationKind.read (fun _ => OperationKind.layout) fun _ => True where
  derives := ⟨_, _, OperationKind.complete_read, fun _ _ _ => rfl⟩
  wellFormed _ kind _ :=
    (Phrase.wellFormed_cons _ _).mpr ⟨kind.isName_keyword, Phrase.wellFormed_nil⟩
  clean _ kind := Layout.clean_name kind.keyword
  layout_reshape _ _ _ := rfl

theorem OperationDefinition.readsBack :
    ReadsBack OperationDefinition.read OperationDefinition.layout
      OperationDefinition.WellFormed where
  derives := ⟨_, _, OperationDefinition.complete_read,
    fun level _ h => OperationDefinition.derives_layout level h⟩
  wellFormed level _ h := OperationDefinition.wellFormed_layout level h
  clean := OperationDefinition.clean_layout
  layout_reshape := OperationDefinition.layout_reshape

theorem FragmentDefinition.readsBack :
    ReadsBack FragmentDefinition.read FragmentDefinition.layout
      FragmentDefinition.WellFormed where
  derives := ⟨_, _, FragmentDefinition.complete_read,
    fun level _ h => FragmentDefinition.derives_layout level h⟩
  wellFormed level _ h := FragmentDefinition.wellFormed_layout level h
  clean := FragmentDefinition.clean_layout
  layout_reshape := FragmentDefinition.layout_reshape

theorem InputValueDefinition.readsBack :
    ReadsBack InputValueDefinition.read InputValueDefinition.layout
      InputValueDefinition.WellFormed where
  derives := ⟨_, _, InputValueDefinition.complete_read,
    fun level _ h => InputValueDefinition.derives_layout level h⟩
  wellFormed level _ h := InputValueDefinition.wellFormed_layout level h
  clean := InputValueDefinition.clean_layout
  layout_reshape := InputValueDefinition.layout_reshape

theorem InputValueDefinition.readsBack_arguments :
    ReadsBack InputValueDefinition.readArguments InputValueDefinition.argumentsLayout
      fun ns => ∀ n ∈ ns, n.WellFormed where
  derives := ⟨_, _, InputValueDefinition.complete_readArguments,
    fun level _ h => InputValueDefinition.derives_argumentsLayout level h⟩
  wellFormed level _ h := InputValueDefinition.wellFormed_argumentsLayout level h
  clean level ns := (InputValueDefinition.clean_argumentsLayout level ns).1
  layout_reshape := InputValueDefinition.argumentsLayout_reshape

theorem FieldDefinition.readsBack (constant : Bool) :
    ReadsBack (FieldDefinition.read constant) FieldDefinition.layout
      FieldDefinition.WellFormed where
  derives := ⟨_, _, FieldDefinition.complete_read constant,
    fun level _ h => FieldDefinition.derives_layout level h⟩
  wellFormed level _ h := FieldDefinition.wellFormed_layout level h
  clean := FieldDefinition.clean_layout
  layout_reshape := FieldDefinition.layout_reshape

theorem EnumValueDefinition.readsBack (constant : Bool) :
    ReadsBack (EnumValueDefinition.read constant) EnumValueDefinition.layout
      EnumValueDefinition.WellFormed where
  derives := ⟨_, _, EnumValueDefinition.complete_read constant,
    fun level _ h => EnumValueDefinition.derives_layout level h⟩
  wellFormed level _ h := EnumValueDefinition.wellFormed_layout level h
  clean := EnumValueDefinition.clean_layout
  layout_reshape := EnumValueDefinition.layout_reshape

theorem TypeName.readsBack_interfaces :
    ReadsBack TypeName.readInterfaces (fun _ => TypeName.interfacesLayout)
      fun ns => ∀ n ∈ ns, n.WellFormed where
  derives := ⟨_, _, TypeName.complete_readListBehind _ _,
    fun _ ns _ => TypeName.derives_interfacesLayout ns⟩
  wellFormed _ _ h := TypeName.wellFormed_interfacesLayout h
  clean _ ns := (TypeName.clean_interfacesLayout ns).1
  layout_reshape _ _ ns := congrArg _ (TypeName.interfacesLayout_reshape ns)

theorem TypeDefinition.readsBack :
    ReadsBack TypeDefinition.read TypeDefinition.layout TypeDefinition.WellFormed where
  derives := ⟨_, _, TypeDefinition.complete_read,
    fun level _ h => TypeDefinition.derives_layout level h⟩
  wellFormed level _ h := TypeDefinition.wellFormed_layout level h
  clean := TypeDefinition.clean_layout
  layout_reshape := TypeDefinition.layout_reshape

theorem TypeDefinition.readsBack_of (kind : TypeKind) :
    ReadsBack (TypeDefinition.readOf kind) TypeDefinition.layout
      fun n => n.WellFormed ∧ n.kind = kind where
  derives := ⟨_, _, TypeDefinition.complete_readOf kind, fun level n h =>
    ⟨TypeDefinition.derives_layout level h.1, (n.kind_reshape keepBlock).trans h.2⟩⟩
  wellFormed level _ h := TypeDefinition.wellFormed_layout level h.1
  clean := TypeDefinition.clean_layout
  layout_reshape := TypeDefinition.layout_reshape

theorem RootOperationType.readsBack :
    ReadsBack RootOperationType.read (fun _ => RootOperationType.layout)
      RootOperationType.WellFormed where
  derives := ⟨_, _, RootOperationType.complete_read, fun _ n _ => .intro (reshape keepBlock n)⟩
  wellFormed _ _ h := RootOperationType.wellFormed_layout h
  clean _ := RootOperationType.clean_layout
  layout_reshape _ _ _ := rfl

theorem SchemaDefinition.readsBack :
    ReadsBack SchemaDefinition.read SchemaDefinition.layout SchemaDefinition.WellFormed where
  derives := ⟨_, _, SchemaDefinition.complete_read, fun level _ h =>
    ⟨SchemaDefinition.derives_layout level h.toPartsWellFormed, reshape_ne_nil h.nonempty⟩⟩
  wellFormed level _ h := SchemaDefinition.wellFormed_layout level h.toPartsWellFormed
  clean := SchemaDefinition.clean_layout
  layout_reshape := SchemaDefinition.layout_reshape

theorem DirectiveLocation.readsBack :
    ReadsBack DirectiveLocation.read (fun _ => DirectiveLocation.layout) fun _ => True where
  derives := ⟨_, _, DirectiveLocation.complete_read, fun _ l _ => .intro l⟩
  wellFormed _ l _ := l.wellFormed_layout
  clean _ l := Layout.clean_name l.name
  layout_reshape _ _ _ := rfl

theorem DirectiveDefinition.readsBack :
    ReadsBack DirectiveDefinition.read DirectiveDefinition.layout
      DirectiveDefinition.WellFormed where
  derives := ⟨_, _, DirectiveDefinition.complete_read,
    fun level _ h => DirectiveDefinition.derives_layout level h⟩
  wellFormed level _ h := DirectiveDefinition.wellFormed_layout level h
  clean := DirectiveDefinition.clean_layout
  layout_reshape := DirectiveDefinition.layout_reshape

theorem Definition.readsBack :
    ReadsBack Definition.read Definition.layout Definition.WellFormed where
  derives := ⟨_, _, Definition.complete_read, fun level _ h => Definition.derives_layout level h⟩
  wellFormed level _ h := Definition.wellFormed_layout level h
  clean := Definition.clean_layout
  layout_reshape := Definition.layout_reshape

end GraphQLText
