import GraphQLText.Proofs.Grammar.TypeSystem
import GraphQLText.Proofs.Writing.Spelling

/-!
# What is written of a phrase

A node is written with the tokens of any phrase of it, less the spare ones. So whatever a source
adds to a node is neither lost nor moved when the node is written.
-/

namespace GraphQLText

set_option autoImplicit false

open Layout (phrases)

theorem StringValue.needed_layout (level : Nat) {ws : Phrase} {s : StringValue}
    (h : StringValue.Derives ws s) : (s.layout level).phrase.needed = ws.needed := by
  rw [phrase_layout]
  cases h <;> split <;> rfl

theorem NamedValue.needed_layout {constant : Bool} {level : Nat} {ws : Phrase}
    {f : NamedValue Value} (h : NamedValue.Derives (Value.Derives constant) ws f)
    (hvalue : ∀ u, Value.Derives constant u f.value →
      (f.value.layout level).phrase.needed = u.needed) :
    (f.layout level).phrase.needed = ws.needed := by
  cases h with
  | intro _ hu =>
    rw [phrase_layout]
    simp only [Phrase.needed_need, hvalue _ hu]

theorem Value.needed_layout {constant : Bool} (level : Nat) {ws : Phrase} {v : Value}
    (h : Value.Derives constant ws v) : (v.layout level).phrase.needed = ws.needed := by
  induction v using Value.induction generalizing ws with
  | var v => cases h with | var _ hv => cases hv; rfl
  | int l => cases h; rfl
  | float l => cases h; rfl
  | string s => cases h with | string hs => exact StringValue.needed_layout level hs
  | boolean b => cases h with | boolean hb => cases hb; rfl
  | null => cases h; rfl
  | enum l => cases h; rfl
  | list l ih =>
    cases h with
    | list _ hm =>
      have hitems : (phrases (l.items.map (layout level))).needed = _ :=
        hm.needed_layouts fun v hv u hu => ih v hv hu
      simp only [phrase_layout_list, Phrase.needed_need, Phrase.needed_append, hitems]
  | object o ih =>
    cases h with
    | object _ hm =>
      have hfields : (phrases (o.items.map (NamedValue.layout level))).needed = _ :=
        hm.needed_layouts fun f hf u hu => NamedValue.needed_layout hu fun w hw => ih f hf hw
      simp only [phrase_layout_object, Phrase.needed_need, Phrase.needed_append, hfields]

section Parts

variable {constant : Bool} (level : Nat) {ws : Phrase}

theorem Argument.needed_layoutAll {arguments : List Argument}
    (h : Argument.DerivesAll constant ws arguments) :
    (Argument.layoutAll level arguments).phrase.needed = ws.needed := by
  rw [phrase_layoutAll]
  exact h.needed_layouts fun a _ u hu =>
    NamedValue.needed_layout hu fun w hw => Value.needed_layout level hw

theorem Value.needed_defaultLayout {default : Option Value} (h : Value.DerivesDefault ws default) :
    (Value.defaultLayout level default).phrase.needed = ws.needed := by
  rw [phrase_defaultLayout]
  cases h with
  | absent => rfl
  | present hu => simp only [Option.elim, Phrase.needed_need, Value.needed_layout level hu]

theorem Directive.needed_layout {d : Directive} (h : Directive.Derives constant ws d) :
    (d.layout level).phrase.needed = ws.needed := by
  cases h with
  | intro _ hu =>
    rw [phrase_layout]
    simp only [Phrase.needed_need, Argument.needed_layoutAll level hu]

theorem Directive.needed_layoutAll {ds : List Directive}
    (h : Directive.DerivesAll constant ws ds) :
    (Directive.layoutAll level ds).phrase.needed = ws.needed := by
  rw [phrase_layoutAll]
  exact Many.needed_layouts (fun d _ u hu => Directive.needed_layout level hu) h

end Parts

theorem TypeRef.needed_layout {ws : Phrase} {t : TypeRef} (h : TypeRef.Derives ws t) :
    t.layout.phrase.needed = ws.needed := by
  induction h with
  | named hn => cases hn; rfl
  | list _ ih => simp only [phrase_layout_list, Phrase.needed_need, Phrase.needed_append, ih]
  | nonNull _ _ ih => simp only [phrase_layout_nonNull, Phrase.needed_append, ih]

section Executable

variable (level : Nat) {ws : Phrase}

theorem FragmentSpread.needed_layout {s : FragmentSpread} (h : FragmentSpread.Derives ws s) :
    (s.layout level).phrase.needed = ws.needed := by
  cases h with
  | intro _ _ hv =>
    rw [phrase_layout]
    simp only [Phrase.needed_need, Directive.needed_layoutAll level hv]

theorem FieldOf.phrase_label {aliasName : Option String} (h : FieldOf.Label ws aliasName) :
    aliasName.elim [] (fun a => [.name a, .mark .colon]) = ws := by
  cases h <;> rfl

theorem TypeName.phrase_condition {condition : Option TypeName}
    (h : Behind (.name "on") TypeName.Derives ws condition) :
    condition.elim [] (fun n => [.name "on", .name n.name]) = ws := by
  cases h with
  | absent => rfl
  | present hn => cases hn; rfl

theorem SelectionSet.needed_of_selections {s : SelectionSet} (h : SelectionSet.Derives ws s)
    (hs : ∀ x ∈ s.items, ∀ u, Selection.Derives u x →
      (x.layout (level + 1)).phrase.needed = u.needed) :
    (SelectionSet.bodyLayout level s).phrase.needed = ws.needed := by
  rw [phrase_bodyLayout]
  exact Enclosed.needed_layouts hs h

theorem Selection.needed_layout {s : Selection} (h : Selection.Derives ws s) :
    (s.layout level).phrase.needed = ws.needed := by
  induction s using Selection.induction generalizing level ws with
  | field f ih =>
    cases h with
    | field hf =>
      cases hf with
      | intro _ hlabel hu hv hw =>
        have hbody := SelectionSet.needed_of_selections level hw
          fun x hx u hu => ih x hx (level + 1) hu
        rw [phrase_layout_field, FieldOf.phrase_label hlabel]
        simp only [Phrase.needed_need, Phrase.needed_append, Argument.needed_layoutAll level hu,
          Directive.needed_layoutAll level hv, hbody]
  | spread s => cases h with | spread hs => exact FragmentSpread.needed_layout level hs
  | inline f ih =>
    cases h with
    | inline hf =>
      cases hf with
      | intro _ hu hv hw _ =>
        have hbody := SelectionSet.needed_of_selections level hw
          fun x hx u hu => ih x hx (level + 1) hu
        rw [phrase_layout_inline, TypeName.phrase_condition hu]
        simp only [Phrase.needed_need, Phrase.needed_append, Directive.needed_layoutAll level hv,
          hbody]

theorem SelectionSet.needed_bodyLayout {s : SelectionSet} (h : SelectionSet.Derives ws s) :
    (SelectionSet.bodyLayout level s).phrase.needed = ws.needed :=
  SelectionSet.needed_of_selections level h fun _ _ _ hu => Selection.needed_layout (level + 1) hu

theorem VariableDefinition.needed_layout {d : VariableDefinition}
    (h : VariableDefinition.Derives ws d) : (d.layout level).phrase.needed = ws.needed := by
  cases h with
  | intro _ hu ht hv hw =>
    cases hu
    rw [phrase_layout]
    simp only [Phrase.needed_need, Phrase.needed_append, TypeRef.needed_layout ht,
      Value.needed_defaultLayout level hv, Directive.needed_layoutAll level hw]

theorem VariableDefinition.needed_layoutAll {ds : List VariableDefinition}
    (h : Enclosed .openParen .closeParen VariableDefinition.Derives ws ds) :
    (VariableDefinition.layoutAll level ds).phrase.needed = ws.needed := by
  rw [phrase_layoutAll]
  exact h.needed_layouts fun d _ u hu => VariableDefinition.needed_layout level hu

/-- The keyword of an operation is written unless it is spare. -/
theorem OperationDefinition.needed_layout {o : OperationDefinition}
    (h : OperationDefinition.Derives ws o) : (o.layout level).phrase.needed = ws.needed := by
  obtain ⟨kind, name, vars, directives, selections, span⟩ := o
  cases h with
  | shorthand _ hshort hw _ =>
    rw [phrase_layout_shorthand level hshort]
    exact SelectionSet.needed_bodyLayout level hw
  | @long _ _ _ _ spare _ hn hu hv hw hne hspare =>
    have hbody := SelectionSet.needed_bodyLayout level hw
    have hshort := hspare.trans (isShorthand_iff_isBraced hn hu hv hw hne).symm
    cases spare with
    | true =>
      replace hshort := hshort.mp rfl
      obtain ⟨-, rfl, rfl, rfl⟩ := parts_of_isShorthand hshort
      cases hn
      cases hv
      cases hu with
      | absent => rw [phrase_layout_shorthand level hshort, Phrase.needed_spare, hbody]; rfl
      | present _ hne => exact absurd rfl hne
    | false =>
      rw [phrase_layout_long level (by simpa using hshort)]
      simp only [Phrase.needed_need, Phrase.needed_append,
        VariableDefinition.needed_layoutAll level hu, Directive.needed_layoutAll level hv, hbody]
      cases hn with
      | absent => rfl
      | present hn => cases hn; rfl

theorem FragmentDefinition.needed_layout {f : FragmentDefinition}
    (h : FragmentDefinition.Derives ws f) : (f.layout level).phrase.needed = ws.needed := by
  cases h with
  | intro _ _ hv hw _ =>
    rw [phrase_layout]
    simp only [Phrase.needed_need, Phrase.needed_append, Directive.needed_layoutAll level hv,
      SelectionSet.needed_bodyLayout level hw]

end Executable

section TypeSystem

variable (level : Nat) {ws : Phrase}

theorem StringValue.needed_descriptionLayout {description : Option StringValue}
    (h : StringValue.DerivesDescription ws description) :
    (StringValue.descriptionLayout level description).phrase.needed = ws.needed := by
  rw [phrase_descriptionLayout]
  cases h with
  | absent => rfl
  | present hs => exact StringValue.needed_layout level hs

theorem InputValueDefinition.needed_layout {d : InputValueDefinition}
    (h : InputValueDefinition.Derives ws d) : (d.layout level).phrase.needed = ws.needed := by
  cases h with
  | intro _ hu ht hv hw =>
    rw [phrase_layout]
    simp only [Phrase.needed_need, Phrase.needed_append,
      StringValue.needed_descriptionLayout level hu, TypeRef.needed_layout ht,
      Value.needed_defaultLayout level hv, Directive.needed_layoutAll level hw]

theorem InputValueDefinition.needed_argumentsLayout {ds : List InputValueDefinition}
    (h : InputValueDefinition.DerivesAll ws ds) :
    (InputValueDefinition.argumentsLayout level ds).phrase.needed = ws.needed := by
  obtain ⟨depth, hphrase⟩ := phrase_argumentsLayout level ds
  rw [hphrase]
  exact h.needed_layouts fun d _ u hu => InputValueDefinition.needed_layout depth hu

theorem FieldDefinition.needed_layout {d : FieldDefinition} (h : FieldDefinition.Derives ws d) :
    (d.layout level).phrase.needed = ws.needed := by
  cases h with
  | intro _ hu hv ht hw =>
    rw [phrase_layout]
    simp only [Phrase.needed_need, Phrase.needed_append,
      StringValue.needed_descriptionLayout level hu,
      InputValueDefinition.needed_argumentsLayout level hv, TypeRef.needed_layout ht,
      Directive.needed_layoutAll level hw]

theorem EnumValueDefinition.needed_layout {d : EnumValueDefinition}
    (h : EnumValueDefinition.Derives ws d) : (d.layout level).phrase.needed = ws.needed := by
  cases h with
  | intro _ hu _ hw =>
    rw [phrase_layout]
    simp only [Phrase.needed_need, Phrase.needed_append,
      StringValue.needed_descriptionLayout level hu, Directive.needed_layoutAll level hw]

theorem TypeName.needed_introduced {t : Token} {separator : Punctuator} {names : List TypeName}
    (h : Introduced t separator TypeName.Derives ws names) :
    Phrase.needed (if names.isEmpty then []
      else .need t :: (TypeName.listLayout separator names).phrase) = ws.needed := by
  cases h with
  | absent => rfl
  | present hnames =>
    have hrow : (TypeName.listLayout separator names).phrase.needed = _ :=
      hnames.needed_layouts fun n _ u hu => by cases hu; rfl
    rw [if_neg (by simpa using hnames.ne_nil), Phrase.needed_need, Phrase.needed_need, hrow]

theorem Enclosed.needed_body {α : Type} {G : Phrase → α → Prop} {write : α → Layout} {as : List α}
    (h : Enclosed .openBrace .closeBrace G ws as)
    (hwrite : ∀ u a, G u a → (write a).phrase.needed = u.needed) :
    (Layout.body level (as.map write)).phrase.needed = ws.needed := by
  rw [Layout.phrase_body_map]
  exact h.needed_layouts fun a _ u hu => hwrite u a hu

theorem TypeContent.needed_layout {us vs : Phrase} {content : TypeContent}
    (h : TypeContent.Derives us vs content) :
    content.headLayout.phrase.needed = us.needed ∧
      (content.tailLayout level).phrase.needed = vs.needed := by
  have hhead : ∀ {ws : Phrase} {names : List TypeName}, TypeName.DerivesInterfaces ws names →
      (TypeName.interfacesLayout names).phrase.needed = ws.needed := by
    intro ws names hnames
    rw [TypeName.phrase_interfacesLayout]
    exact TypeName.needed_introduced hnames
  cases h with
  | scalar => exact ⟨rfl, rfl⟩
  | object hu hv =>
    exact ⟨hhead hu, hv.needed_body level fun _ _ hd => FieldDefinition.needed_layout _ hd⟩
  | interface hu hv =>
    exact ⟨hhead hu, hv.needed_body level fun _ _ hd => FieldDefinition.needed_layout _ hd⟩
  | union hv =>
    rw [phrase_tailLayout_union]
    exact ⟨rfl, TypeName.needed_introduced hv⟩
  | enum hv =>
    exact ⟨rfl, hv.needed_body level fun _ _ hd => EnumValueDefinition.needed_layout _ hd⟩
  | inputObject hv =>
    exact ⟨rfl, hv.needed_body level fun _ _ hd => InputValueDefinition.needed_layout _ hd⟩

theorem TypeDefinition.needed_layout {d : TypeDefinition} (h : TypeDefinition.Derives ws d) :
    (d.layout level).phrase.needed = ws.needed := by
  cases h with
  | intro _ hu hcontent hv =>
    obtain ⟨hhead, htail⟩ := TypeContent.needed_layout level hcontent
    rw [phrase_layout]
    simp only [Phrase.needed_need, Phrase.needed_append,
      StringValue.needed_descriptionLayout level hu, hhead, Directive.needed_layoutAll level hv,
      htail]

theorem SchemaDefinition.needed_layout {d : SchemaDefinition} (h : SchemaDefinition.Derives ws d) :
    (d.layout level).phrase.needed = ws.needed := by
  cases h with
  | intro _ hu hv hw =>
    have htypes : (Layout.body level (d.operationTypes.map RootOperationType.layout)).phrase.needed =
        _ := hw.needed_body level fun u t ht => by cases ht; rfl
    rw [phrase_layout]
    simp only [Phrase.needed_need, Phrase.needed_append,
      StringValue.needed_descriptionLayout level hu, Directive.needed_layoutAll level hv, htypes]

theorem DirectiveDefinition.needed_layout {d : DirectiveDefinition}
    (h : DirectiveDefinition.Derives ws d) : (d.layout level).phrase.needed = ws.needed := by
  cases h with
  | intro _ hu hv hw =>
    have hplaces : (Layout.separated [.space, .mark .pipe, .space]
        (d.locations.map DirectiveLocation.layout)).phrase.needed = _ :=
      hw.needed_layouts fun l _ u hl => by cases hl; rfl
    rw [phrase_layout]
    simp only [Phrase.needed_need, Phrase.needed_append,
      StringValue.needed_descriptionLayout level hu,
      InputValueDefinition.needed_argumentsLayout level hv, hplaces]

theorem Definition.needed_layout {d : Definition} (h : Definition.Derives ws d) :
    (d.layout level).phrase.needed = ws.needed := by
  cases h with
  | operation hd => exact OperationDefinition.needed_layout level hd
  | fragment hd => exact FragmentDefinition.needed_layout level hd
  | schema hd _ => exact SchemaDefinition.needed_layout level hd
  | type hd => exact TypeDefinition.needed_layout level hd
  | directive hd => exact DirectiveDefinition.needed_layout level hd
  | schemaExtension hd _ _ =>
    exact congrArg (List.cons (.name "extend")) (SchemaDefinition.needed_layout level hd)
  | typeExtension hd _ _ =>
    exact congrArg (List.cons (.name "extend")) (TypeDefinition.needed_layout level hd)

theorem Document.needed_layout {d : Document} (h : Document.Derives ws d) :
    (d.layout level).phrase.needed = ws.needed := by
  cases h with
  | intro hm _ =>
    rw [phrase_layout]
    exact hm.needed_layouts fun _ _ _ hd => Definition.needed_layout level hd

end TypeSystem

end GraphQLText
