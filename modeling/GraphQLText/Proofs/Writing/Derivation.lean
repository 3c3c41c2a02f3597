import GraphQLText.Proofs.Grammar.TypeSystem
import GraphQLText.Proofs.Grammar.WellFormed
import GraphQLText.Proofs.Writing.Reshape
import GraphQLText.Proofs.Writing.Spelling

/-!
# Written nodes are phrases

The tokens with which a well-formed node is written are a phrase of the node. Only the strings that
a block cannot hold are quoted in it, whatever they were before.
-/

namespace GraphQLText

set_option autoImplicit false

theorem StringValue.derives_layout (level : Nat) (s : StringValue) :
    StringValue.Derives (s.layout level).phrase (reshape keepBlock s) := by
  unfold layout
  split
  · next h => exact .block (reshape keepBlock s) h
  · next h => exact .quoted (reshape keepBlock s) (Bool.eq_false_iff.mpr h)

theorem NamedValue.derives_layout {constant : Bool} {level : Nat} {f : NamedValue Value}
    (h : Value.Derives constant (f.value.layout level).phrase (reshape keepBlock f.value)) :
    NamedValue.Derives (Value.Derives constant) (f.layout level).phrase (reshape keepBlock f) :=
  .intro (reshape keepBlock f) h

theorem Value.derives_layout {constant : Bool} {v : Value} (h : v.WellFormed constant)
    (level : Nat) : Value.Derives constant (v.layout level).phrase (reshape keepBlock v) := by
  induction h with
  | @var v hc _ => exact .var hc (.intro (reshape keepBlock v))
  | @int l _ => exact .int (reshape keepBlock l)
  | @float l _ => exact .float (reshape keepBlock l)
  | string s => exact .string (s.derives_layout level)
  | boolean b => exact .boolean (.intro (reshape keepBlock b))
  | null => exact .null
  | @enum l he => exact .enum (reshape keepBlock l) he.2
  | list l _ ih =>
    rw [reshape_list, phrase_layout_list]
    exact .list _ (Many.of_layouts ih)
  | object o _ _ ih =>
    rw [reshape_object, phrase_layout_object]
    exact .object _ (Many.of_layouts fun f hf => NamedValue.derives_layout (ih f hf))

section Parts

variable {constant : Bool} (level : Nat)

theorem Argument.derives_layout {a : Argument} (h : a.WellFormed constant) :
    Argument.Derives constant (NamedValue.layout level a).phrase (reshape keepBlock a) :=
  NamedValue.derives_layout (Value.derives_layout h.2 level)

theorem Argument.derives_layoutAll {arguments : List Argument}
    (h : ∀ a ∈ arguments, a.WellFormed constant) :
    Argument.DerivesAll constant (Argument.layoutAll level arguments).phrase
      (reshape keepBlock arguments) := by
  rw [phrase_layoutAll]
  exact Enclosed.of_layouts (fun a ha => Argument.derives_layout level (h a ha)) _ _

theorem Value.derives_defaultLayout {default : Option Value}
    (h : ∀ v ∈ default, v.WellFormed true) :
    Value.DerivesDefault (Value.defaultLayout level default).phrase
      (reshape keepBlock default) := by
  cases default with
  | none => exact .absent
  | some v => exact .present (Value.derives_layout (h v rfl) level)

theorem Directive.derives_layout {d : Directive} (h : d.WellFormed constant) :
    Directive.Derives constant (d.layout level).phrase (reshape keepBlock d) :=
  .intro (reshape keepBlock d) (Argument.derives_layoutAll level h.arguments)

theorem Directive.derives_layoutAll {ds : List Directive}
    (h : ∀ d ∈ ds, d.WellFormed constant) :
    Directive.DerivesAll constant (Directive.layoutAll level ds).phrase
      (reshape keepBlock ds) := by
  rw [phrase_layoutAll]
  exact Many.of_layouts fun d hd => Directive.derives_layout level (h d hd)

end Parts

theorem TypeRef.derives_layout {t : TypeRef} (h : t.WellFormed) :
    TypeRef.Derives t.layout.phrase (reshape keepBlock t) := by
  induction h with
  | @named n _ => exact .named (.intro (reshape keepBlock n))
  | @list t _ ih =>
    rw [phrase_layout_list]
    exact .list ih
  | @nonNull t _ hne ih =>
    rw [phrase_layout_nonNull]
    refine .nonNull ih fun s hs => ?_
    cases t with
    | nonNull u => exact hne u rfl
    | _ => cases hs

section Executable

variable (level : Nat)

theorem FragmentSpread.derives_layout {s : FragmentSpread} (h : s.WellFormed) :
    FragmentSpread.Derives (s.layout level).phrase (reshape keepBlock s) := by
  rw [phrase_layout]
  exact .intro (reshape keepBlock s) h.name_ne (Directive.derives_layoutAll level h.directives)

theorem FieldOf.label_reshape {σ : Type} [HasShape σ] (f : FieldOf σ) :
    FieldOf.Label (f.aliasName.elim [] fun a => [.name a, .mark .colon])
      (reshape keepBlock f).aliasName := by
  obtain ⟨aliasName, name, arguments, directives, selections, span⟩ := f
  cases aliasName with
  | none => exact .absent
  | some a => exact .present a

theorem TypeName.derives_condition (condition : Option TypeName) :
    Behind (.name "on") TypeName.Derives
      (condition.elim [] fun n => [.name "on", .name n.name]) (reshape keepBlock condition) := by
  cases condition with
  | none => exact .absent
  | some n => exact .present (.intro (reshape keepBlock n))

/-- A selection set whose selections are phrases is one. -/
theorem SelectionSet.derives_of_selections {s : SelectionSet}
    (h : ∀ x ∈ s.items, Selection.Derives (x.layout (level + 1)).phrase (reshape keepBlock x)) :
    SelectionSet.Derives (SelectionSet.bodyLayout level s).phrase (reshape keepBlock s) := by
  rw [SelectionSet.phrase_bodyLayout]
  exact Enclosed.of_layouts h _ _

theorem reshape_ne_nil {α : Type} [HasShape α] {as : List α} (h : as ≠ []) :
    reshape keepBlock as ≠ [] := by
  cases as with
  | nil => exact absurd rfl h
  | cons a as => exact List.cons_ne_nil _ _

theorem Selection.derives_layout {s : Selection} (h : s.WellFormed) :
    Selection.Derives (s.layout level).phrase (reshape keepBlock s) := by
  induction h generalizing level with
  | field f hf _ ih =>
    rw [reshape_field, phrase_layout_field]
    refine .field (.intro (reshape keepBlock f) (FieldOf.label_reshape f)
      (Argument.derives_layoutAll level hf.arguments)
      (Directive.derives_layoutAll level hf.directives) ?_)
    exact SelectionSet.derives_of_selections level fun x hx => ih x hx (level + 1)
  | spread hs => exact .spread (FragmentSpread.derives_layout level hs)
  | inline f hf _ ih =>
    rw [reshape_inline, phrase_layout_inline]
    refine .inline (.intro (reshape keepBlock f) (TypeName.derives_condition f.typeCondition)
      (Directive.derives_layoutAll level hf.directives) ?_ (reshape_ne_nil hf.selections))
    exact SelectionSet.derives_of_selections level fun x hx => ih x hx (level + 1)

theorem SelectionSet.derives_bodyLayout {s : SelectionSet} (h : ∀ x ∈ s.items, x.WellFormed) :
    SelectionSet.Derives (SelectionSet.bodyLayout level s).phrase (reshape keepBlock s) :=
  SelectionSet.derives_of_selections level fun x hx => Selection.derives_layout (level + 1) (h x hx)

theorem VariableDefinition.derives_layout {d : VariableDefinition} (h : d.WellFormed) :
    VariableDefinition.Derives (d.layout level).phrase (reshape keepBlock d) := by
  rw [phrase_layout]
  exact .intro (reshape keepBlock d) (.intro (reshape keepBlock d.var))
    (TypeRef.derives_layout h.type) (Value.derives_defaultLayout level h.default)
    (Directive.derives_layoutAll level h.directives)

theorem VariableDefinition.derives_layoutAll {ds : List VariableDefinition}
    (h : ∀ d ∈ ds, d.WellFormed) :
    Enclosed .openParen .closeParen VariableDefinition.Derives
      (VariableDefinition.layoutAll level ds).phrase (reshape keepBlock ds) := by
  rw [phrase_layoutAll]
  exact Enclosed.of_layouts (fun d hd => VariableDefinition.derives_layout level (h d hd)) _ _

theorem OperationDefinition.derives_layout {o : OperationDefinition} (h : o.WellFormed) :
    OperationDefinition.Derives (o.layout level).phrase (reshape keepBlock o) := by
  have hshape := isShorthand_reshape keepBlock o
  have hbody := SelectionSet.derives_bodyLayout level h.selections
  have hne : (reshape keepBlock o).selections.items ≠ [] := reshape_ne_nil h.nonempty
  cases hshort : o.isShorthand with
  | true =>
    rw [phrase_layout_shorthand level hshort]
    exact .shorthand _ (hshape.trans hshort) hbody hne
  | false =>
    rw [phrase_layout_long level hshort]
    have hname : Perhaps TypeName.Derives (o.name.elim [] fun n => [.name n.name])
        (reshape keepBlock o).name := by
      obtain ⟨kind, name, vars, directives, selections, span⟩ := o
      cases name with
      | none => exact .absent
      | some n => exact .present (.intro (reshape keepBlock n))
    have hdefinitions := VariableDefinition.derives_layoutAll level h.variableDefinitions
    have hdirectives := Directive.derives_layoutAll level h.directives
    have hspare := isShorthand_iff_isBraced hname hdefinitions hdirectives hbody hne
    rw [hshape, hshort] at hspare
    exact .long (reshape keepBlock o) hname hdefinitions hdirectives hbody hne hspare

theorem FragmentDefinition.derives_layout {f : FragmentDefinition} (h : f.WellFormed) :
    FragmentDefinition.Derives (f.layout level).phrase (reshape keepBlock f) := by
  rw [phrase_layout]
  exact .intro (reshape keepBlock f) h.name_ne (Directive.derives_layoutAll level h.directives)
    (SelectionSet.derives_bodyLayout level h.selections) (reshape_ne_nil h.nonempty)

end Executable

section TypeSystem

variable (level : Nat)

theorem StringValue.derives_descriptionLayout (description : Option StringValue) :
    StringValue.DerivesDescription (StringValue.descriptionLayout level description).phrase
      (reshape keepBlock description) := by
  rw [phrase_descriptionLayout]
  cases description with
  | none => exact .absent
  | some s => exact .present (s.derives_layout level)

theorem InputValueDefinition.derives_layout {d : InputValueDefinition} (h : d.WellFormed) :
    InputValueDefinition.Derives (d.layout level).phrase (reshape keepBlock d) := by
  rw [phrase_layout]
  exact .intro (reshape keepBlock d) (StringValue.derives_descriptionLayout level d.description)
    (TypeRef.derives_layout h.type) (Value.derives_defaultLayout level h.default)
    (Directive.derives_layoutAll level h.directives)

theorem InputValueDefinition.derives_argumentsLayout {ds : List InputValueDefinition}
    (h : ∀ d ∈ ds, d.WellFormed) :
    InputValueDefinition.DerivesAll (InputValueDefinition.argumentsLayout level ds).phrase
      (reshape keepBlock ds) := by
  obtain ⟨depth, hphrase⟩ := phrase_argumentsLayout level ds
  rw [hphrase]
  exact Enclosed.of_layouts (fun d hd => InputValueDefinition.derives_layout depth (h d hd)) _ _

theorem FieldDefinition.derives_layout {d : FieldDefinition} (h : d.WellFormed) :
    FieldDefinition.Derives (d.layout level).phrase (reshape keepBlock d) := by
  rw [phrase_layout]
  exact .intro (reshape keepBlock d) (StringValue.derives_descriptionLayout level d.description)
    (InputValueDefinition.derives_argumentsLayout level h.arguments)
    (TypeRef.derives_layout h.type) (Directive.derives_layoutAll level h.directives)

theorem EnumValueDefinition.derives_layout {d : EnumValueDefinition} (h : d.WellFormed) :
    EnumValueDefinition.Derives (d.layout level).phrase (reshape keepBlock d) := by
  rw [phrase_layout]
  exact .intro (reshape keepBlock d) (StringValue.derives_descriptionLayout level d.description)
    h.isEnum (Directive.derives_layoutAll level h.directives)

theorem TypeName.derives_listLayout (separator : Punctuator) {names : List TypeName}
    (hne : names ≠ []) :
    Separated separator TypeName.Derives (TypeName.listLayout separator names).phrase
      (reshape keepBlock names) :=
  .plain (Row.of_layouts (fun n _ => .intro (reshape keepBlock n)) separator hne)

theorem TypeName.derives_interfacesLayout (interfaces : List TypeName) :
    TypeName.DerivesInterfaces (TypeName.interfacesLayout interfaces).phrase
      (reshape keepBlock interfaces) := by
  rw [phrase_interfacesLayout]
  cases interfaces with
  | nil => exact .absent
  | cons n names => exact .present (TypeName.derives_listLayout .ampersand (by simp))

/-- Definitions in braces, where each is a phrase on its own. -/
theorem Enclosed.of_body {α : Type} [HasShape α] {G : Phrase → α → Prop} {write : α → Layout}
    {as : List α} (h : ∀ a ∈ as, G (write a).phrase (reshape keepBlock a)) :
    Enclosed .openBrace .closeBrace G (Layout.body level (as.map write)).phrase
      (reshape keepBlock as) := by
  rw [Layout.phrase_body_map]
  exact Enclosed.of_layouts h _ _

theorem TypeContent.derives_layout {content : TypeContent} (h : content.WellFormed) :
    TypeContent.Derives content.headLayout.phrase (content.tailLayout level).phrase
      (reshape keepBlock content) := by
  cases content with
  | scalar => exact .scalar
  | object interfaces fields =>
    exact .object (TypeName.derives_interfacesLayout interfaces)
      (Enclosed.of_body level fun d hd => FieldDefinition.derives_layout (level + 1) (h.2 d hd))
  | interface interfaces fields =>
    exact .interface (TypeName.derives_interfacesLayout interfaces)
      (Enclosed.of_body level fun d hd => FieldDefinition.derives_layout (level + 1) (h.2 d hd))
  | union members =>
    rw [phrase_tailLayout_union]
    refine .union ?_
    cases members with
    | nil => exact .absent
    | cons n names => exact .present (TypeName.derives_listLayout .pipe (by simp))
  | enum values =>
    exact .enum (Enclosed.of_body level fun d hd =>
      EnumValueDefinition.derives_layout (level + 1) (h d hd))
  | inputObject fields =>
    exact .inputObject (Enclosed.of_body level fun d hd =>
      InputValueDefinition.derives_layout (level + 1) (h d hd))

theorem TypeDefinition.derives_layout {d : TypeDefinition} (h : d.WellFormed) :
    TypeDefinition.Derives (d.layout level).phrase (reshape keepBlock d) := by
  rw [phrase_layout, ← d.kind_reshape keepBlock]
  exact .intro (reshape keepBlock d) (StringValue.derives_descriptionLayout level d.description)
    (TypeContent.derives_layout level h.content) (Directive.derives_layoutAll level h.directives)

theorem SchemaDefinition.derives_layout {d : SchemaDefinition} (h : d.PartsWellFormed) :
    SchemaDefinition.Derives (d.layout level).phrase (reshape keepBlock d) := by
  rw [phrase_layout]
  exact .intro (reshape keepBlock d) (StringValue.derives_descriptionLayout level d.description)
    (Directive.derives_layoutAll level h.directives)
    (Enclosed.of_body level fun t _ => .intro (reshape keepBlock t))

theorem DirectiveDefinition.derives_layout {d : DirectiveDefinition} (h : d.WellFormed) :
    DirectiveDefinition.Derives (d.layout level).phrase (reshape keepBlock d) := by
  have hlocations : reshape keepBlock d.locations = d.locations := List.map_id _
  have hrow : Row .pipe DirectiveLocation.Derives
      (Layout.separated [.space, .mark .pipe, .space]
        (d.locations.map DirectiveLocation.layout)).phrase (reshape keepBlock d.locations) :=
    Row.of_layouts (fun l _ => .intro l) .pipe h.nonempty
  rw [hlocations] at hrow
  rw [phrase_layout]
  exact .intro (reshape keepBlock d) (StringValue.derives_descriptionLayout level d.description)
    (InputValueDefinition.derives_argumentsLayout level h.arguments) (.plain hrow)

end TypeSystem

section Documents

variable (level : Nat)

theorem Definition.derives_layout {d : Definition} (h : d.WellFormed) :
    Definition.Derives (d.layout level).phrase (reshape keepBlock d) := by
  cases d with
  | operation d => exact .operation (OperationDefinition.derives_layout level h)
  | fragment d => exact .fragment (FragmentDefinition.derives_layout level h)
  | schema d =>
    exact .schema (SchemaDefinition.derives_layout level h.toPartsWellFormed)
      (reshape_ne_nil h.nonempty)
  | type d => exact .type (TypeDefinition.derives_layout level h)
  | directive d => exact .directive (DirectiveDefinition.derives_layout level h)
  | schemaExtension d =>
    obtain ⟨hparts, hnone, hadds⟩ := h
    exact .schemaExtension (SchemaDefinition.derives_layout level hparts)
      (congrArg (reshape keepBlock) hnone) ((d.addsNothing_reshape keepBlock).trans hadds)
  | typeExtension d =>
    obtain ⟨hd, hnone, hadds⟩ := h
    exact .typeExtension (TypeDefinition.derives_layout level hd)
      (congrArg (reshape keepBlock) hnone) ((d.addsNothing_reshape keepBlock).trans hadds)

end Documents

end GraphQLText
