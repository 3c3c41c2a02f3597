import GraphQLText.Proofs.Grammar.WellFormed
import GraphQLText.Proofs.Writing.Spelling

/-!
# What well-formed nodes are written with

A well-formed node is written with well-formed tokens: its names are names, its numbers are numbers,
and the keywords between them are names as well.
-/

namespace GraphQLText

set_option autoImplicit false

namespace Layout

@[simp] theorem wellFormed_phrases {parts : List Layout} :
    (phrases parts).WellFormed ↔ ∀ p ∈ parts, p.phrase.WellFormed := by
  induction parts with
  | nil => simp
  | cons p parts ih => rw [phrases_cons, Phrase.wellFormed_append, ih, List.forall_mem_cons]

section Items

variable {α : Type} {write : α → Layout} {as : List α}
variable (h : ∀ a ∈ as, (write a).phrase.WellFormed)
include h

theorem wellFormed_separated (separator : Punctuator) :
    (separated [.space, .mark separator, .space] (as.map write)).phrase.WellFormed := by
  induction as with
  | nil => simp
  | cons a as ih =>
    have hrest := ih fun b hb => h b (by simp [hb])
    cases as with
    | nil => simpa using h
    | cons b as =>
      rw [List.map_cons, List.map_cons, separated_cons_cons, phrase_append, phrase_append,
        Phrase.wellFormed_append]
      exact ⟨h a (by simp), by simpa using hrest⟩

theorem wellFormed_phrases_map : (phrases (as.map write)).WellFormed := by
  rw [wellFormed_phrases, List.forall_mem_map]
  exact h

/-- Items between two marks, or nothing. -/
theorem wellFormed_enclosed (opening close : Punctuator) :
    Phrase.WellFormed (if as.isEmpty then []
      else .mark opening :: (phrases (as.map write) ++ [.mark close])) := by
  split
  · exact Phrase.wellFormed_nil
  · simpa using h

theorem wellFormed_body (level : Nat) : (body level (as.map write)).phrase.WellFormed := by
  rw [phrase_body_map]
  exact wellFormed_enclosed h _ _

end Items

end Layout

theorem StringValue.wellFormed_layout (level : Nat) (s : StringValue) :
    (s.layout level).phrase.WellFormed := by
  rw [phrase_layout]
  split <;> simp

theorem Value.wellFormed_layout {constant : Bool} {v : Value} (h : v.WellFormed constant)
    (level : Nat) : (v.layout level).phrase.WellFormed := by
  induction h with
  | @var v _ hv => simpa [layout, Variable.layout, Variable.WellFormed] using hv
  | int hl => exact (Phrase.wellFormed_cons _ _).mpr ⟨hl, Phrase.wellFormed_nil⟩
  | float hl => exact (Phrase.wellFormed_cons _ _).mpr ⟨hl, Phrase.wellFormed_nil⟩
  | string s => exact s.wellFormed_layout level
  | boolean b => cases hb : b.value <;> simp [layout, BooleanValue.layout, hb] <;> decide
  | null => simp [layout]; decide
  | enum hl => exact (Phrase.wellFormed_cons _ _).mpr ⟨hl.1, Phrase.wellFormed_nil⟩
  | list l _ ih =>
    rw [phrase_layout_list]
    simpa using ih
  | object o hnames _ ih =>
    rw [phrase_layout_object]
    have hfields : ∀ f ∈ o.items, (NamedValue.layout level f).phrase.WellFormed := by
      intro f hf
      rw [NamedValue.phrase_layout]
      simpa using ⟨hnames f hf, ih f hf⟩
    simpa using hfields

section Parts

variable {constant : Bool} (level : Nat)

theorem Argument.wellFormed_layout {a : Argument} (h : a.WellFormed constant) :
    (NamedValue.layout level a).phrase.WellFormed := by
  rw [NamedValue.phrase_layout]
  simpa using ⟨h.1, Value.wellFormed_layout h.2 level⟩

theorem Argument.wellFormed_layoutAll {arguments : List Argument}
    (h : ∀ a ∈ arguments, a.WellFormed constant) :
    (Argument.layoutAll level arguments).phrase.WellFormed := by
  rw [phrase_layoutAll]
  exact Layout.wellFormed_enclosed (fun a ha => Argument.wellFormed_layout level (h a ha)) _ _

theorem Value.wellFormed_defaultLayout {default : Option Value}
    (h : ∀ v ∈ default, v.WellFormed true) :
    (Value.defaultLayout level default).phrase.WellFormed := by
  rw [phrase_defaultLayout]
  cases default with
  | none => exact Phrase.wellFormed_nil
  | some v => simpa using Value.wellFormed_layout (h v rfl) level

theorem Directive.wellFormed_layout {d : Directive} (h : d.WellFormed constant) :
    (d.layout level).phrase.WellFormed := by
  rw [phrase_layout]
  simpa using ⟨h.name, Argument.wellFormed_layoutAll level h.arguments⟩

theorem Directive.wellFormed_layoutAll {ds : List Directive}
    (h : ∀ d ∈ ds, d.WellFormed constant) :
    (Directive.layoutAll level ds).phrase.WellFormed := by
  rw [phrase_layoutAll]
  exact Layout.wellFormed_phrases_map fun d hd => Directive.wellFormed_layout level (h d hd)

end Parts

theorem TypeRef.wellFormed_layout {t : TypeRef} (h : t.WellFormed) :
    t.layout.phrase.WellFormed := by
  induction h with
  | named hn => simpa [layout, TypeName.layout, TypeName.WellFormed] using hn
  | list _ ih =>
    rw [phrase_layout_list]
    simpa using ih
  | nonNull _ _ ih =>
    rw [phrase_layout_nonNull]
    simpa using ih

section Executable

variable (level : Nat)

theorem FragmentSpread.wellFormed_layout {s : FragmentSpread} (h : s.WellFormed) :
    (s.layout level).phrase.WellFormed := by
  rw [phrase_layout]
  simpa using ⟨h.name, Directive.wellFormed_layoutAll level h.directives⟩

theorem Selection.wellFormed_layout {s : Selection} (h : s.WellFormed) :
    (s.layout level).phrase.WellFormed := by
  induction h generalizing level with
  | field f hf _ ih =>
    have hlabel : Phrase.WellFormed
        (f.aliasName.elim [] fun a => [.name a, .mark .colon]) := by
      cases ha : f.aliasName with
      | none => exact Phrase.wellFormed_nil
      | some a => simpa using hf.aliasName a ha
    have hbody : (SelectionSet.bodyLayout level f.selections).phrase.WellFormed :=
      Layout.wellFormed_body (fun x hx => ih x hx (level + 1)) level
    rw [phrase_layout_field]
    simpa using ⟨hlabel, hf.name, Argument.wellFormed_layoutAll level hf.arguments,
      Directive.wellFormed_layoutAll level hf.directives, hbody⟩
  | spread hs => exact FragmentSpread.wellFormed_layout level hs
  | inline f hf _ ih =>
    have hcondition : Phrase.WellFormed
        (f.typeCondition.elim [] fun n => [.name "on", .name n.name]) := by
      cases hn : f.typeCondition with
      | none => exact Phrase.wellFormed_nil
      | some n =>
        have hon : isName "on" = true := by decide
        simpa [TypeName.WellFormed] using ⟨hon, hf.condition n hn⟩
    have hbody : (SelectionSet.bodyLayout level f.selections).phrase.WellFormed :=
      Layout.wellFormed_body (fun x hx => ih x hx (level + 1)) level
    rw [phrase_layout_inline]
    simpa using ⟨hcondition, Directive.wellFormed_layoutAll level hf.directives, hbody⟩

theorem SelectionSet.wellFormed_bodyLayout {s : SelectionSet} (h : ∀ x ∈ s.items, x.WellFormed) :
    (SelectionSet.bodyLayout level s).phrase.WellFormed :=
  Layout.wellFormed_body (fun x hx => Selection.wellFormed_layout (level + 1) (h x hx)) level

theorem VariableDefinition.wellFormed_layout {d : VariableDefinition} (h : d.WellFormed) :
    (d.layout level).phrase.WellFormed := by
  rw [phrase_layout]
  simpa using ⟨h.var, TypeRef.wellFormed_layout h.type,
    Value.wellFormed_defaultLayout level h.default, Directive.wellFormed_layoutAll level h.directives⟩

theorem VariableDefinition.wellFormed_layoutAll {ds : List VariableDefinition}
    (h : ∀ d ∈ ds, d.WellFormed) : (VariableDefinition.layoutAll level ds).phrase.WellFormed := by
  rw [phrase_layoutAll]
  exact Layout.wellFormed_enclosed
    (fun d hd => VariableDefinition.wellFormed_layout level (h d hd)) _ _

theorem OperationKind.isName_keyword (kind : OperationKind) : isName kind.keyword = true := by
  cases kind <;> decide

theorem OperationDefinition.wellFormed_layout {o : OperationDefinition} (h : o.WellFormed) :
    (o.layout level).phrase.WellFormed := by
  have hbody := SelectionSet.wellFormed_bodyLayout level h.selections
  cases hshort : o.isShorthand with
  | true => rwa [phrase_layout_shorthand level hshort]
  | false =>
    have hname : Phrase.WellFormed (o.name.elim [] fun n => [.name n.name]) := by
      cases hn : o.name with
      | none => exact Phrase.wellFormed_nil
      | some n => simpa [TypeName.WellFormed] using h.name n hn
    rw [phrase_layout_long level hshort]
    simpa using ⟨o.kind.isName_keyword, hname,
      VariableDefinition.wellFormed_layoutAll level h.variableDefinitions,
      Directive.wellFormed_layoutAll level h.directives, hbody⟩

theorem FragmentDefinition.wellFormed_layout {f : FragmentDefinition} (h : f.WellFormed) :
    (f.layout level).phrase.WellFormed := by
  have hkeywords : isName "fragment" = true ∧ isName "on" = true := by decide
  rw [phrase_layout]
  simpa using ⟨hkeywords.1, h.name, hkeywords.2, h.typeCondition,
    Directive.wellFormed_layoutAll level h.directives,
    SelectionSet.wellFormed_bodyLayout level h.selections⟩

end Executable

section TypeSystem

variable (level : Nat)

theorem StringValue.wellFormed_descriptionLayout (description : Option StringValue) :
    (StringValue.descriptionLayout level description).phrase.WellFormed := by
  rw [phrase_descriptionLayout]
  cases description with
  | none => exact Phrase.wellFormed_nil
  | some s => exact s.wellFormed_layout level

theorem InputValueDefinition.wellFormed_layout {d : InputValueDefinition} (h : d.WellFormed) :
    (d.layout level).phrase.WellFormed := by
  rw [phrase_layout]
  simpa using ⟨StringValue.wellFormed_descriptionLayout level d.description, h.name,
    TypeRef.wellFormed_layout h.type, Value.wellFormed_defaultLayout level h.default,
    Directive.wellFormed_layoutAll level h.directives⟩

theorem InputValueDefinition.wellFormed_argumentsLayout {ds : List InputValueDefinition}
    (h : ∀ d ∈ ds, d.WellFormed) :
    (InputValueDefinition.argumentsLayout level ds).phrase.WellFormed := by
  obtain ⟨depth, hphrase⟩ := phrase_argumentsLayout level ds
  rw [hphrase]
  exact Layout.wellFormed_enclosed
    (fun d hd => InputValueDefinition.wellFormed_layout depth (h d hd)) _ _

theorem FieldDefinition.wellFormed_layout {d : FieldDefinition} (h : d.WellFormed) :
    (d.layout level).phrase.WellFormed := by
  rw [phrase_layout]
  simpa using ⟨StringValue.wellFormed_descriptionLayout level d.description, h.name,
    InputValueDefinition.wellFormed_argumentsLayout level h.arguments,
    TypeRef.wellFormed_layout h.type, Directive.wellFormed_layoutAll level h.directives⟩

theorem EnumValueDefinition.wellFormed_layout {d : EnumValueDefinition} (h : d.WellFormed) :
    (d.layout level).phrase.WellFormed := by
  rw [phrase_layout]
  simpa using ⟨StringValue.wellFormed_descriptionLayout level d.description, h.name,
    Directive.wellFormed_layoutAll level h.directives⟩

theorem TypeName.wellFormed_listLayout (separator : Punctuator) {names : List TypeName}
    (h : ∀ n ∈ names, n.WellFormed) :
    (TypeName.listLayout separator names).phrase.WellFormed :=
  Layout.wellFormed_separated (fun _ hn => TypeRef.wellFormed_layout (.named (h _ hn))) separator

theorem TypeName.wellFormed_interfacesLayout {interfaces : List TypeName}
    (h : ∀ n ∈ interfaces, n.WellFormed) :
    (TypeName.interfacesLayout interfaces).phrase.WellFormed := by
  have hkeyword : isName "implements" = true := by decide
  rw [phrase_interfacesLayout]
  split
  · exact Phrase.wellFormed_nil
  · simpa using ⟨hkeyword, TypeName.wellFormed_listLayout .ampersand h⟩

theorem TypeContent.wellFormed_headLayout {content : TypeContent} (h : content.WellFormed) :
    content.headLayout.phrase.WellFormed := by
  cases content with
  | object => exact TypeName.wellFormed_interfacesLayout h.1
  | interface => exact TypeName.wellFormed_interfacesLayout h.1
  | _ => exact Phrase.wellFormed_nil

theorem TypeContent.wellFormed_tailLayout {content : TypeContent} (h : content.WellFormed) :
    (content.tailLayout level).phrase.WellFormed := by
  cases content with
  | scalar => exact Phrase.wellFormed_nil
  | object =>
    exact Layout.wellFormed_body (fun d hd => FieldDefinition.wellFormed_layout _ (h.2 d hd)) level
  | interface =>
    exact Layout.wellFormed_body (fun d hd => FieldDefinition.wellFormed_layout _ (h.2 d hd)) level
  | union members =>
    rw [phrase_tailLayout_union]
    split
    · exact Phrase.wellFormed_nil
    · simpa using TypeName.wellFormed_listLayout .pipe h
  | enum =>
    exact Layout.wellFormed_body (fun d hd => EnumValueDefinition.wellFormed_layout _ (h d hd)) level
  | inputObject =>
    exact Layout.wellFormed_body (fun d hd => InputValueDefinition.wellFormed_layout _ (h d hd)) level

theorem TypeDefinition.wellFormed_layout {d : TypeDefinition} (h : d.WellFormed) :
    (d.layout level).phrase.WellFormed := by
  have hkeyword : isName d.kind.keyword = true := by cases d.kind <;> decide
  rw [phrase_layout]
  simpa using ⟨StringValue.wellFormed_descriptionLayout level d.description, hkeyword, h.name,
    TypeContent.wellFormed_headLayout h.content, Directive.wellFormed_layoutAll level h.directives,
    TypeContent.wellFormed_tailLayout level h.content⟩

theorem RootOperationType.wellFormed_layout {d : RootOperationType} (h : d.WellFormed) :
    d.layout.phrase.WellFormed := by
  rw [phrase_layout]
  simpa using ⟨d.kind.isName_keyword, h⟩

theorem SchemaDefinition.wellFormed_layout {d : SchemaDefinition} (h : d.PartsWellFormed) :
    (d.layout level).phrase.WellFormed := by
  have hkeyword : isName "schema" = true := by decide
  have htypes := Layout.wellFormed_body
    (fun t ht => RootOperationType.wellFormed_layout (h.operationTypes t ht)) level
  rw [phrase_layout]
  simp only [Phrase.wellFormed_append, Phrase.wellFormed_cons]
  exact ⟨StringValue.wellFormed_descriptionLayout level d.description, hkeyword,
    Directive.wellFormed_layoutAll level h.directives, htypes⟩

theorem DirectiveLocation.wellFormed_layout (l : DirectiveLocation) : l.layout.phrase.WellFormed := by
  have hname : isName l.name = true := by cases l <;> decide
  simpa [layout] using hname

theorem DirectiveDefinition.wellFormed_layout {d : DirectiveDefinition} (h : d.WellFormed) :
    (d.layout level).phrase.WellFormed := by
  have hkeywords : isName "directive" = true ∧ isName "on" = true := by decide
  have hrepeatable :
      Phrase.WellFormed (if d.repeatable then [.name "repeatable"] else []) := by
    have hkeyword : isName "repeatable" = true := by decide
    split
    · simpa using hkeyword
    · exact Phrase.wellFormed_nil
  have hplaces : (Layout.separated [.space, .mark .pipe, .space]
      (d.locations.map DirectiveLocation.layout)).phrase.WellFormed :=
    Layout.wellFormed_separated (fun l _ => l.wellFormed_layout) .pipe
  rw [phrase_layout]
  simp only [Phrase.wellFormed_append, Phrase.wellFormed_cons]
  exact ⟨StringValue.wellFormed_descriptionLayout level d.description, hkeywords.1, trivial, h.name,
    InputValueDefinition.wellFormed_argumentsLayout level h.arguments, hrepeatable, hkeywords.2,
    hplaces⟩

theorem Definition.wellFormed_layout {d : Definition} (h : d.WellFormed) :
    (d.layout level).phrase.WellFormed := by
  have hextend : isName "extend" = true := by decide
  cases d with
  | operation => exact OperationDefinition.wellFormed_layout level h
  | fragment => exact FragmentDefinition.wellFormed_layout level h
  | schema => exact SchemaDefinition.wellFormed_layout level h.toPartsWellFormed
  | type => exact TypeDefinition.wellFormed_layout level h
  | directive => exact DirectiveDefinition.wellFormed_layout level h
  | schemaExtension =>
    simpa [layout] using ⟨hextend, SchemaDefinition.wellFormed_layout level h.1⟩
  | typeExtension =>
    simpa [layout] using ⟨hextend, TypeDefinition.wellFormed_layout level h.1⟩

theorem Document.wellFormed_layout {d : Document} (h : d.WellFormed) :
    (d.layout level).phrase.WellFormed := by
  rw [phrase_layout]
  exact Layout.wellFormed_phrases_map fun x hx => Definition.wellFormed_layout level
    (h.definitions x hx)

end TypeSystem

end GraphQLText
