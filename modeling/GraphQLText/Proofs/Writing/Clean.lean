import GraphQLText.Document.Layout
import GraphQLText.Proofs.Lexing.Written
import GraphQLText.Proofs.Writing.Phrase

/-!
# Written nodes are clean

However a node is made, the layout that it is written with is clean: what is written of it can be
read back token by token, at any depth.
-/

namespace GraphQLText

set_option autoImplicit false

namespace Layout

theorem clean_name (text : String) : Clean [.name text] :=
  clean_word (by simp)

theorem Clean.name {pieces : Layout} (h : Clean pieces) (hb : Breaks pieces) (text : String) :
    Clean (.name text :: pieces) :=
  .cons trivial (.inr hb) h

theorem Clean.mark {pieces : Layout} (h : Clean pieces) (p : Punctuator) :
    Clean (.mark p :: pieces) :=
  h.soft trivial rfl

theorem Clean.space {pieces : Layout} (h : Clean pieces) : Clean (.space :: pieces) :=
  h.soft trivial rfl

theorem Clean.comma {pieces : Layout} (h : Clean pieces) : Clean (.comma :: pieces) :=
  h.soft trivial rfl

theorem Clean.line {pieces : Layout} (h : Clean pieces) (level : Nat) :
    Clean (.line level :: pieces) :=
  h.soft trivial rfl

theorem breaks_space (pieces : Layout) : Breaks (.space :: pieces) :=
  breaks_cons rfl pieces

theorem breaks_line (level : Nat) (pieces : Layout) : Breaks (.line level :: pieces) :=
  breaks_cons rfl pieces

theorem breaks_colon (pieces : Layout) : Breaks (.mark .colon :: pieces) :=
  breaks_cons rfl pieces

section Items

variable {α : Type} {write : α → Layout} {as : List α} (h : ∀ a ∈ as, Clean (write a))
include h

/-- Parts that are clean stay so with a gap between each and the next. -/
theorem clean_separated {gap : Layout} (hgap : ∀ pieces, Clean pieces → Clean (gap ++ pieces))
    (hb : ∀ pieces, Breaks (gap ++ pieces)) : Clean (separated gap (as.map write)) := by
  induction as with
  | nil => rw [List.map_nil, separated_nil]; exact .nil
  | cons a as ih =>
    have hrest := ih fun b hb => h b (by simp [hb])
    cases as with
    | nil => rw [List.map_cons, List.map_nil, separated_singleton]; exact h a (by simp)
    | cons b as =>
      rw [List.map_cons, List.map_cons, separated_cons_cons]
      exact (h a (by simp)).append (hgap _ hrest) (hb _)

theorem clean_marked (separator : Punctuator) :
    Clean (separated [.space, .mark separator, .space] (as.map write)) :=
  clean_separated h (fun _ hp => (hp.space.mark separator).space) fun _ => breaks_space _

theorem clean_enclosed (opening : Punctuator) {close : Punctuator} (hclose : close ≠ .ellipsis) :
    Clean (enclosed opening close (as.map write)) := by
  have hitems : Clean (separated [.comma] (as.map write)) :=
    clean_separated h (fun _ hp => hp.comma) fun _ => breaks_cons rfl _
  have hmark : Breaks [.mark close] := breaks_cons (by cases close <;> simp_all [Piece.isBreak]) []
  exact (hitems.append (clean_word (by simp)) hmark).mark opening

theorem clean_stacked (opening close : Punctuator) (level : Nat) :
    Clean (stacked opening close level (as.map write)) := by
  have hlines : Clean ((as.map write).flatMap (fun part => .line (level + 1) :: part) ++
      [.line level, .mark close]) := by
    induction as with
    | nil => exact (clean_word (by simp)).line level
    | cons a as ih =>
      have hrest := ih fun b hb => h b (by simp [hb])
      rw [List.map_cons, List.flatMap_cons, List.append_assoc]
      refine ((h a (by simp)).append hrest ?_).line (level + 1)
      cases as with
      | nil => exact breaks_line _ _
      | cons b as => exact breaks_line _ _
  exact hlines.mark opening

theorem clean_body (level : Nat) :
    Clean (body level (as.map write)) ∧ Breaks (body level (as.map write)) := by
  unfold body braced
  split
  · exact ⟨.nil, breaks_nil⟩
  · exact ⟨(clean_stacked h _ _ level).space, breaks_space _⟩

/-- Layouts of which each is set off from what is before it are set off together. -/
theorem clean_flatMap (hb : ∀ a, Breaks (write a)) :
    Clean (as.flatMap write) ∧ Breaks (as.flatMap write) := by
  induction as with
  | nil => exact ⟨.nil, breaks_nil⟩
  | cons a as ih =>
    obtain ⟨hclean, hbreaks⟩ := ih fun b hb => h b (by simp [hb])
    exact ⟨(h a (by simp)).append hclean hbreaks, (hb a).append hbreaks⟩

end Items

end Layout

open Layout

theorem StringValue.clean_layout (level : Nat) (s : StringValue) : (s.layout level).Clean := by
  unfold StringValue.layout
  split
  · next h =>
    simp only [StringValue.isBlock, Bool.and_eq_true] at h
    exact .cons h.2 (.inr breaks_nil) .nil
  · exact clean_word (by simp)

theorem NamedValue.clean_layoutWith {name : String} {value : Layout} (h : value.Clean) :
    (NamedValue.layoutWith name value).Clean :=
  (h.space.mark .colon).name (breaks_colon _) name

theorem Value.clean_layout (level : Nat) (v : Value) : (v.layout level).Clean := by
  induction v using Value.induction with
  | var v => exact (clean_name v.name).mark .dollar
  | int l => exact clean_word (by simp)
  | float l => exact clean_word (by simp)
  | string s => exact s.clean_layout level
  | boolean b => exact clean_name _
  | null => exact clean_name _
  | enum l => exact clean_word (by simp)
  | list l ih =>
    rw [Value.layout, Value.itemLayouts_eq_map]
    exact clean_enclosed ih _ (by simp)
  | object o ih =>
    rw [Value.layout, Value.fieldLayouts_eq_map]
    exact clean_enclosed (fun f hf => NamedValue.clean_layoutWith (ih f hf)) _ (by simp)

theorem NamedValue.clean_layout (level : Nat) (f : NamedValue Value) : (f.layout level).Clean :=
  NamedValue.clean_layoutWith (f.value.clean_layout level)

theorem Argument.clean_layoutAll (level : Nat) (arguments : List Argument) :
    (Argument.layoutAll level arguments).Clean ∧ (Argument.layoutAll level arguments).Breaks := by
  unfold Argument.layoutAll
  split
  · exact ⟨.nil, breaks_nil⟩
  · exact ⟨clean_enclosed (fun a _ => a.clean_layout level) _ (by simp), breaks_cons rfl _⟩

theorem Value.clean_defaultLayout (level : Nat) (default : Option Value) :
    (Value.defaultLayout level default).Clean ∧ (Value.defaultLayout level default).Breaks := by
  cases default with
  | none => exact ⟨.nil, breaks_nil⟩
  | some v => exact ⟨((v.clean_layout level).space.mark .equals).space, breaks_space _⟩

theorem Directive.clean_layout (level : Nat) (d : Directive) : (d.layout level).Clean := by
  obtain ⟨hclean, hbreaks⟩ := Argument.clean_layoutAll level d.arguments
  exact (hclean.name hbreaks d.name).mark .atSign

theorem Directive.clean_layoutAll (level : Nat) (ds : List Directive) :
    (Directive.layoutAll level ds).Clean ∧ (Directive.layoutAll level ds).Breaks :=
  clean_flatMap (fun d _ => (d.clean_layout level).space) fun _ => breaks_space _

theorem TypeRef.clean_layout (t : TypeRef) : t.layout.Clean := by
  induction t with
  | named n => exact clean_name n.name
  | list t ih => exact (ih.append (clean_word (by simp)) (breaks_cons rfl _)).mark .openBracket
  | nonNull t ih => exact ih.append (clean_word (by simp)) (breaks_cons rfl _)

theorem FieldOf.clean_headLayout {σ : Type} (level : Nat) (f : FieldOf σ) :
    (f.headLayout level).Clean := by
  obtain ⟨ha, hab⟩ := Argument.clean_layoutAll level f.arguments
  obtain ⟨hd, hdb⟩ := Directive.clean_layoutAll level f.directives
  have hrest := (ha.append hd hdb).name (hab.append hdb) f.name
  unfold FieldOf.headLayout
  rw [List.append_assoc, List.cons_append]
  cases f.aliasName with
  | none => exact hrest
  | some a => exact (hrest.space.mark .colon).name (breaks_colon _) a

theorem InlineFragmentOf.clean_headLayout {σ : Type} (level : Nat) (f : InlineFragmentOf σ) :
    (f.headLayout level).Clean := by
  obtain ⟨hd, hdb⟩ := Directive.clean_layoutAll level f.directives
  unfold InlineFragmentOf.headLayout
  cases f.typeCondition with
  | none => exact hd.mark .ellipsis
  | some n => exact (((hd.name hdb n.name).space.name (breaks_space _) "on").space).mark .ellipsis

theorem FragmentSpread.clean_layout (level : Nat) (s : FragmentSpread) : (s.layout level).Clean := by
  obtain ⟨hd, hdb⟩ := Directive.clean_layoutAll level s.directives
  exact (hd.name hdb s.name.name).mark .ellipsis

theorem Selection.clean_layout (level : Nat) (s : Selection) : (s.layout level).Clean := by
  induction s using Selection.induction generalizing level with
  | field f ih =>
    rw [Selection.layout, Selection.layouts_eq_map]
    have hbody := clean_body (fun s hs => ih s hs (level + 1)) level
    exact (f.clean_headLayout level).append hbody.1 hbody.2
  | spread s => exact s.clean_layout level
  | inline f ih =>
    rw [Selection.layout, Selection.layouts_eq_map]
    have hbody := clean_body (fun s hs => ih s hs (level + 1)) level
    exact (f.clean_headLayout level).append hbody.1 hbody.2

theorem SelectionSet.clean_layout (level : Nat) (s : SelectionSet) : (s.layout level).Clean := by
  unfold SelectionSet.layout braced
  split
  · exact .nil
  · exact clean_stacked (fun x _ => x.clean_layout (level + 1)) _ _ level

theorem SelectionSet.clean_bodyLayout (level : Nat) (s : SelectionSet) :
    (s.bodyLayout level).Clean ∧ (s.bodyLayout level).Breaks :=
  clean_body (fun x _ => x.clean_layout (level + 1)) level

theorem VariableDefinition.clean_layout (level : Nat) (d : VariableDefinition) :
    (d.layout level).Clean := by
  obtain ⟨hv, hvb⟩ := Value.clean_defaultLayout level d.default
  obtain ⟨hd, hdb⟩ := Directive.clean_layoutAll level d.directives
  have hvar : Clean d.var.layout := (clean_name d.var.name).mark .dollar
  have hhead := hvar.append (d.type.clean_layout.space.mark .colon) (breaks_colon _)
  exact (hhead.append hv hvb).append hd hdb

theorem VariableDefinition.clean_layoutAll (level : Nat) (ds : List VariableDefinition) :
    (VariableDefinition.layoutAll level ds).Clean ∧
      (VariableDefinition.layoutAll level ds).Breaks := by
  unfold VariableDefinition.layoutAll
  split
  · exact ⟨.nil, breaks_nil⟩
  · exact ⟨clean_enclosed (fun d _ => d.clean_layout level) _ (by simp), breaks_cons rfl _⟩

theorem OperationDefinition.clean_nameLayout (o : OperationDefinition) :
    o.nameLayout.Clean ∧ o.nameLayout.Breaks := by
  unfold OperationDefinition.nameLayout
  cases o.name with
  | some n => exact ⟨(clean_name n.name).space, breaks_space _⟩
  | none =>
    simp only
    split
    · exact ⟨.nil, breaks_nil⟩
    · exact ⟨Clean.nil.space, breaks_space _⟩

theorem OperationDefinition.clean_layout (level : Nat) (o : OperationDefinition) :
    (o.layout level).Clean := by
  unfold OperationDefinition.layout
  split
  · exact o.selections.clean_layout level
  · obtain ⟨hn, hnb⟩ := o.clean_nameLayout
    obtain ⟨hv, hvb⟩ := VariableDefinition.clean_layoutAll level o.variableDefinitions
    obtain ⟨hd, hdb⟩ := Directive.clean_layoutAll level o.directives
    obtain ⟨hs, hsb⟩ := o.selections.clean_bodyLayout level
    have hkey : Clean o.kind.layout := clean_name o.kind.keyword
    exact (((hkey.append hn hnb).append hv hvb).append hd hdb).append hs hsb

theorem FragmentDefinition.clean_layout (level : Nat) (f : FragmentDefinition) :
    (f.layout level).Clean := by
  obtain ⟨hd, hdb⟩ := Directive.clean_layoutAll level f.directives
  obtain ⟨hs, hsb⟩ := f.selections.clean_bodyLayout level
  have hcond : Clean (.space :: .name "on" :: .space :: f.typeCondition.layout) :=
    ((clean_name _).space.name (breaks_space _) "on").space
  have hname : Clean (.name "fragment" :: .space :: f.name.layout) :=
    (clean_name _).space.name (breaks_space _) "fragment"
  exact ((hname.append hcond (breaks_space _)).append hd hdb).append hs hsb

/-- A description ends with a line end, so anything may follow it. -/
theorem StringValue.clean_described (level : Nat) (description : Option StringValue)
    {pieces : Layout} (h : pieces.Clean) :
    (StringValue.descriptionLayout level description ++ pieces).Clean := by
  cases description with
  | none => exact h
  | some s =>
    rw [StringValue.descriptionLayout, List.append_assoc]
    exact (s.clean_layout level).append (h.line level) (breaks_line _ _)

theorem InputValueDefinition.clean_layout (level : Nat) (d : InputValueDefinition) :
    (d.layout level).Clean := by
  obtain ⟨hv, hvb⟩ := Value.clean_defaultLayout level d.default
  obtain ⟨hd, hdb⟩ := Directive.clean_layoutAll level d.directives
  have hname : Clean (.name d.name :: .mark .colon :: .space :: d.type.layout) :=
    (d.type.clean_layout.space.mark .colon).name (breaks_colon _) d.name
  exact ((StringValue.clean_described level _ hname).append hv hvb).append hd hdb

theorem InputValueDefinition.clean_argumentsLayout (level : Nat) (ds : List InputValueDefinition) :
    (InputValueDefinition.argumentsLayout level ds).Clean ∧
      (InputValueDefinition.argumentsLayout level ds).Breaks := by
  unfold InputValueDefinition.argumentsLayout
  split
  · exact ⟨.nil, breaks_nil⟩
  · split
    · exact ⟨clean_stacked (fun d _ => d.clean_layout (level + 1)) _ _ level,
        breaks_cons rfl _⟩
    · exact ⟨clean_enclosed (fun d _ => d.clean_layout level) _ (by simp), breaks_cons rfl _⟩

theorem FieldDefinition.clean_layout (level : Nat) (d : FieldDefinition) :
    (d.layout level).Clean := by
  obtain ⟨ha, hab⟩ := InputValueDefinition.clean_argumentsLayout level d.arguments
  obtain ⟨hd, hdb⟩ := Directive.clean_layoutAll level d.directives
  have htype : Clean (.mark .colon :: .space :: d.type.layout) :=
    d.type.clean_layout.space.mark .colon
  exact ((StringValue.clean_described level _ (ha.name hab d.name)).append htype
    (breaks_colon _)).append hd hdb

theorem EnumValueDefinition.clean_layout (level : Nat) (d : EnumValueDefinition) :
    (d.layout level).Clean := by
  obtain ⟨hd, hdb⟩ := Directive.clean_layoutAll level d.directives
  exact StringValue.clean_described level _ (hd.name hdb d.name)

theorem TypeName.clean_listLayout (separator : Punctuator) (names : List TypeName) :
    (TypeName.listLayout separator names).Clean :=
  clean_marked (fun n _ => clean_name n.name) separator

theorem TypeName.clean_interfacesLayout (interfaces : List TypeName) :
    (TypeName.interfacesLayout interfaces).Clean ∧
      (TypeName.interfacesLayout interfaces).Breaks := by
  unfold TypeName.interfacesLayout
  split
  · exact ⟨.nil, breaks_nil⟩
  · exact ⟨((TypeName.clean_listLayout .ampersand interfaces).space.name (breaks_space _) _).space,
      breaks_space _⟩

theorem TypeContent.clean_headLayout (content : TypeContent) :
    content.headLayout.Clean ∧ content.headLayout.Breaks := by
  cases content with
  | object interfaces _ => exact TypeName.clean_interfacesLayout interfaces
  | interface interfaces _ => exact TypeName.clean_interfacesLayout interfaces
  | _ => exact ⟨.nil, breaks_nil⟩

theorem TypeContent.clean_tailLayout (level : Nat) (content : TypeContent) :
    (content.tailLayout level).Clean ∧ (content.tailLayout level).Breaks := by
  have hfields : ∀ fields : List FieldDefinition,
      Clean (body level (fields.map (FieldDefinition.layout (level + 1)))) ∧
        Breaks (body level (fields.map (FieldDefinition.layout (level + 1)))) :=
    fun fields => clean_body (fun d _ => d.clean_layout (level + 1)) level
  cases content with
  | scalar => exact ⟨.nil, breaks_nil⟩
  | object _ fields => exact hfields fields
  | interface _ fields => exact hfields fields
  | union members =>
    simp only [TypeContent.tailLayout]
    split
    · exact ⟨.nil, breaks_nil⟩
    · exact ⟨((TypeName.clean_listLayout .pipe members).space.mark .equals).space,
        breaks_space _⟩
  | enum values => exact clean_body (fun d _ => d.clean_layout (level + 1)) level
  | inputObject fields => exact clean_body (fun d _ => d.clean_layout (level + 1)) level

theorem TypeDefinition.clean_layout (level : Nat) (d : TypeDefinition) :
    (d.layout level).Clean := by
  obtain ⟨hh, hhb⟩ := d.content.clean_headLayout
  obtain ⟨hd, hdb⟩ := Directive.clean_layoutAll level d.directives
  obtain ⟨ht, htb⟩ := d.content.clean_tailLayout level
  have hname : Clean (.name d.kind.keyword :: .space :: d.name.layout) :=
    (clean_name d.name.name).space.name (breaks_space _) _
  exact (((StringValue.clean_described level _ hname).append hh hhb).append hd hdb).append ht htb

theorem RootOperationType.clean_layout (d : RootOperationType) : d.layout.Clean :=
  (clean_name d.kind.keyword).append ((clean_name d.type.name).space.mark .colon) (breaks_colon _)

theorem SchemaDefinition.clean_layout (level : Nat) (d : SchemaDefinition) :
    (d.layout level).Clean := by
  obtain ⟨hd, hdb⟩ := Directive.clean_layoutAll level d.directives
  have htypes := clean_body (fun t (_ : t ∈ d.operationTypes) => t.clean_layout) level
  exact (StringValue.clean_described level _ (hd.name hdb "schema")).append htypes.1 htypes.2

theorem DirectiveDefinition.clean_layout (level : Nat) (d : DirectiveDefinition) :
    (d.layout level).Clean := by
  obtain ⟨ha, hab⟩ := InputValueDefinition.clean_argumentsLayout level d.arguments
  have hname := StringValue.clean_described level d.description
    (((ha.name hab d.name).mark .atSign).space.name (breaks_space _) "directive")
  have hrepeatable : Clean (if d.repeatable then [.space, .name "repeatable"] else []) ∧
      Breaks (if d.repeatable then [.space, .name "repeatable"] else []) := by
    split
    · exact ⟨(clean_name _).space, breaks_space _⟩
    · exact ⟨.nil, breaks_nil⟩
  have hplaces : Clean (separated [.space, .mark .pipe, .space]
      (d.locations.map DirectiveLocation.layout)) :=
    clean_marked (fun l _ => clean_name l.name) .pipe
  exact (hname.append hrepeatable.1 hrepeatable.2).append
    (hplaces.space.name (breaks_space _) "on").space (breaks_space _)

theorem Definition.clean_layout (level : Nat) (d : Definition) : (d.layout level).Clean := by
  cases d with
  | operation d => exact d.clean_layout level
  | fragment d => exact d.clean_layout level
  | schema d => exact d.clean_layout level
  | type d => exact d.clean_layout level
  | directive d => exact d.clean_layout level
  | schemaExtension d => exact (d.clean_layout level).space.name (breaks_space _) "extend"
  | typeExtension d => exact (d.clean_layout level).space.name (breaks_space _) "extend"

theorem Document.clean_layout (level : Nat) (d : Document) : (d.layout level).Clean :=
  clean_separated (fun x _ => x.clean_layout level)
    (fun _ hp => hp.soft (p := .paragraph) trivial rfl) fun _ => breaks_cons rfl _

end GraphQLText
