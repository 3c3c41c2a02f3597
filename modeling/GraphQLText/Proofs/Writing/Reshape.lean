import GraphQLText.Document.Layout
import GraphQLText.Proofs.Lexing.Stream

/-!
# What the layout of a node depends on

A node is written without regard to where it stands in a source. A string that is flagged as a
block is written as one only if that keeps its text, so other flags make no difference as long as
they agree on the texts that a block string can hold. To whom both forms of a string are the same,
no flags make any difference.
-/

namespace GraphQLText

set_option autoImplicit false

/-- The new flags make a block of a string exactly if the old ones do. -/
def Faithful (flag : String → Bool → Bool) : Prop :=
  ∀ text block, (flag text block && BlockString.keeps text.toList) =
    (block && BlockString.keeps text.toList)

/-- Whether a string that is flagged as a block is written as one. -/
def keepBlock (text : String) (block : Bool) : Bool :=
  block && BlockString.keeps text.toList

theorem faithful_keepBlock : Faithful keepBlock := by
  intro text block
  simp [keepBlock]

theorem faithful_bare : Faithful fun _ block => block := fun _ _ => rfl

/-- Seen through `view`, a string is written alike under the new flags and under the old ones. -/
def Blind (flag : String → Bool → Bool) (view : Piece → Piece) : Prop :=
  ∀ level (s : StringValue), ((reshape flag s).layout level).map view = (s.layout level).map view

theorem Faithful.blind {flag : String → Bool → Bool} (h : Faithful flag) : Blind flag id := by
  intro level s
  have hblock : (reshape flag s).isBlock = s.isBlock := h s.value s.block
  simp only [StringValue.layout, hblock]
  rfl

namespace Piece

def plain : Piece → Piece
  | word t => word t.plain
  | block value _ => word (.string value)
  | p => p

theorem token?_plain (p : Piece) : p.plain.token? = p.token?.map Token.plain := by
  cases p <;> rfl

end Piece

theorem blind_plain (flag : String → Bool → Bool) : Blind flag Piece.plain := by
  intro level s
  have hplain : ∀ s : StringValue, (s.layout level).map Piece.plain = [.word (.string s.value)] := by
    intro s
    unfold StringValue.layout
    split <;> rfl
  rw [hplain, hplain]
  rfl

theorem Layout.tokens_plain (pieces : Layout) :
    Layout.tokens (pieces.map Piece.plain) = pieces.tokens.map Token.plain := by
  have hpiece : Piece.token? ∘ Piece.plain = fun piece => piece.token?.map Token.plain :=
    funext Piece.token?_plain
  simp only [Layout.tokens, List.filterMap_map, List.map_filterMap, hpiece]

section Lists

variable {α : Type} [HasShape α] (flag : String → Bool → Bool)

@[simp] theorem isEmpty_reshape (as : List α) : (reshape flag as).isEmpty = as.isEmpty := by
  cases as <;> rfl

/-- Where no item is written otherwise, neither is the list of them. -/
theorem map_reshape {β : Type} {write : α → β} {as : List α}
    (h : ∀ a ∈ as, write (reshape flag a) = write a) :
    (reshape flag as).map write = as.map write := by
  rw [reshape_eq_map, List.map_map]
  exact List.map_congr_left h

end Lists

theorem SchemaDefinition.addsNothing_reshape (flag : String → Bool → Bool) (d : SchemaDefinition) :
    (reshape flag d).addsNothing = d.addsNothing := by
  obtain ⟨description, directives, types, span⟩ := d
  change addsNothing ⟨reshape flag description, reshape flag directives, reshape flag types,
    Span.zero⟩ = _
  simp only [addsNothing, isEmpty_reshape]

theorem TypeDefinition.addsNothing_reshape (flag : String → Bool → Bool) (d : TypeDefinition) :
    (reshape flag d).addsNothing = d.addsNothing := by
  obtain ⟨description, name, directives, content, span⟩ := d
  have hcontent : (reshape flag content).isEmpty = content.isEmpty := by
    cases content <;> simp [reshape, TypeContent.restyle, TypeContent.isEmpty]
  change addsNothing ⟨reshape flag description, reshape flag name, reshape flag directives,
    reshape flag content, Span.zero⟩ = _
  simp only [addsNothing, isEmpty_reshape, hcontent]

namespace Layout

abbrev Alike (view : Piece → Piece) (ps qs : List Layout) : Prop :=
  ps.map (List.map view) = qs.map (List.map view)

variable {view : Piece → Piece} {ps qs : List Layout}

theorem Alike.of_reshape {α : Type} [HasShape α] {flag : String → Bool → Bool}
    {write : α → Layout} {as : List α}
    (h : ∀ a ∈ as, (write (reshape flag a)).map view = (write a).map view) :
    Alike view ((reshape flag as).map write) (as.map write) := by
  rw [Alike, List.map_map, List.map_map]
  exact map_reshape flag h

theorem Alike.isEmpty (h : Alike view ps qs) : ps.isEmpty = qs.isEmpty := by
  rw [← List.isEmpty_map (f := List.map view), h, List.isEmpty_map]

theorem Alike.separated (h : Alike view ps qs) (gap : Layout) :
    (separated gap ps).map view = (separated gap qs).map view := by
  have hmap : ∀ rs : List Layout, (Layout.separated gap rs).map view =
      Layout.separated (gap.map view) (rs.map (List.map view)) := by
    intro rs
    induction rs with
    | nil => simp [Layout.separated]
    | cons p rs ih =>
      cases rs with
      | nil => simp [Layout.separated]
      | cons q rs => simp_all [Layout.separated, List.intercalate]
  rw [hmap, hmap, h]

theorem Alike.enclosed (h : Alike view ps qs) (opening close : Punctuator) :
    (enclosed opening close ps).map view = (enclosed opening close qs).map view := by
  simp only [Layout.enclosed, List.map_append, List.map_cons, h.separated]

theorem Alike.stacked (h : Alike view ps qs) (opening close : Punctuator) (level : Nat) :
    (stacked opening close level ps).map view = (stacked opening close level qs).map view := by
  have hmap : ∀ rs : List Layout,
      (rs.flatMap fun part => Piece.line (level + 1) :: part).map view =
        (rs.map (List.map view)).flatMap fun part => view (.line (level + 1)) :: part := by
    intro rs
    simp [List.map_flatMap, List.flatMap_map]
  simp only [Layout.stacked, List.map_append, List.map_cons, hmap, h]

theorem Alike.braced (h : Alike view ps qs) (level : Nat) :
    (braced level ps).map view = (braced level qs).map view := by
  simp only [Layout.braced, h.isEmpty]
  split
  · rfl
  · exact h.stacked _ _ level

theorem Alike.body (h : Alike view ps qs) (level : Nat) :
    (body level ps).map view = (body level qs).map view := by
  simp only [Layout.body, h.isEmpty]
  split
  · rfl
  · rw [List.map_cons, List.map_cons, h.braced]

end Layout

section Layouts

variable {flag : String → Bool → Bool} {view : Piece → Piece} (hf : Blind flag view)
include hf

open Layout (Alike)

theorem Value.layout_reshape (level : Nat) (v : Value) :
    ((reshape flag v).layout level).map view = (v.layout level).map view := by
  induction v using Value.induction with
  | var | int | float | boolean | null | enum => rfl
  | string s => exact hf level s
  | list l ih =>
    rw [reshape_list, Value.layout, Value.layout, itemLayouts_eq_map, itemLayouts_eq_map]
    exact (Alike.of_reshape ih).enclosed _ _
  | object o ih =>
    rw [reshape_object, Value.layout, Value.layout, fieldLayouts_eq_map, fieldLayouts_eq_map]
    refine (Alike.of_reshape fun f hf => ?_).enclosed _ _
    exact congrArg (fun pieces => [Piece.name f.name, .mark .colon, .space].map view ++ pieces)
      (ih f hf)

theorem NamedValue.layout_reshape (level : Nat) (f : NamedValue Value) :
    ((reshape flag f).layout level).map view = (f.layout level).map view :=
  congrArg (fun pieces => [Piece.name f.name, .mark .colon, .space].map view ++ pieces)
    (Value.layout_reshape hf level f.value)

theorem Argument.layoutAll_reshape (level : Nat) (arguments : List Argument) :
    (Argument.layoutAll level (reshape flag arguments)).map view =
      (Argument.layoutAll level arguments).map view := by
  simp only [Argument.layoutAll, isEmpty_reshape]
  split
  · rfl
  · exact (Alike.of_reshape fun a _ => NamedValue.layout_reshape hf level a).enclosed _ _

theorem Value.defaultLayout_reshape (level : Nat) (default : Option Value) :
    (Value.defaultLayout level (reshape flag default)).map view =
      (Value.defaultLayout level default).map view := by
  cases default with
  | none => rfl
  | some v => simp only [reshape_some, defaultLayout, List.map_cons, Value.layout_reshape hf]

theorem Directive.layout_reshape (level : Nat) (d : Directive) :
    ((reshape flag d).layout level).map view = (d.layout level).map view := by
  obtain ⟨name, arguments, span⟩ := d
  change (layout level ⟨name, reshape flag arguments, Span.zero⟩).map view = _
  simp only [layout, List.map_cons, Argument.layoutAll_reshape hf]

theorem Directive.layoutAll_reshape (level : Nat) (ds : List Directive) :
    (Directive.layoutAll level (reshape flag ds)).map view =
      (Directive.layoutAll level ds).map view := by
  induction ds with
  | nil => rfl
  | cons d ds ih =>
    simp only [Directive.layoutAll, reshape_cons, List.flatMap_cons, List.map_append,
      List.map_cons] at ih ⊢
    rw [ih, Directive.layout_reshape hf]

omit hf in
theorem TypeRef.layout_reshape (t : TypeRef) : (reshape flag t).layout = t.layout := by
  induction t with
  | named n => rfl
  | list t ih => exact congrArg (fun pieces => .mark .openBracket :: pieces ++ [.mark .closeBracket]) ih
  | nonNull t ih => exact congrArg (· ++ [.mark .bang]) ih

theorem FragmentSpread.layout_reshape (level : Nat) (s : FragmentSpread) :
    ((reshape flag s).layout level).map view = (s.layout level).map view := by
  obtain ⟨name, directives, span⟩ := s
  change (layout level ⟨reshape flag name, reshape flag directives, Span.zero⟩).map view = _
  simp only [layout, List.map_append, Directive.layoutAll_reshape hf]
  rfl

theorem FieldOf.headLayout_reshape {σ : Type} [HasShape σ] (level : Nat) (f : FieldOf σ) :
    ((reshape flag f).headLayout level).map view = (f.headLayout level).map view := by
  obtain ⟨aliasName, name, arguments, directives, selections, span⟩ := f
  change (headLayout level (⟨aliasName, name, reshape flag arguments, reshape flag directives,
    reshape flag selections, Span.zero⟩ : FieldOf σ)).map view = _
  simp only [headLayout, List.map_append, List.map_cons, Argument.layoutAll_reshape hf,
    Directive.layoutAll_reshape hf]

theorem InlineFragmentOf.headLayout_reshape {σ : Type} [HasShape σ] (level : Nat)
    (f : InlineFragmentOf σ) :
    ((reshape flag f).headLayout level).map view = (f.headLayout level).map view := by
  obtain ⟨condition, directives, selections, span⟩ := f
  change (headLayout level (⟨reshape flag condition, reshape flag directives,
    reshape flag selections, Span.zero⟩ : InlineFragmentOf σ)).map view = _
  simp only [headLayout, List.map_append, List.map_cons, Directive.layoutAll_reshape hf]
  cases condition <;> rfl

theorem Selection.layout_reshape (level : Nat) (s : Selection) :
    ((reshape flag s).layout level).map view = (s.layout level).map view := by
  induction s using Selection.induction generalizing level with
  | field f ih =>
    rw [reshape_field, Selection.layout, Selection.layout, layouts_eq_map, layouts_eq_map,
      List.map_append, List.map_append]
    have hitems := Alike.of_reshape fun s hs => ih s hs (level + 1)
    have hhead := FieldOf.headLayout_reshape hf level f
    exact congr (congrArg _ hhead) (hitems.body level)
  | spread s => exact FragmentSpread.layout_reshape hf level s
  | inline f ih =>
    rw [reshape_inline, Selection.layout, Selection.layout, layouts_eq_map, layouts_eq_map,
      List.map_append, List.map_append]
    have hitems := Alike.of_reshape fun s hs => ih s hs (level + 1)
    have hhead := InlineFragmentOf.headLayout_reshape hf level f
    exact congr (congrArg _ hhead) (hitems.body level)

theorem SelectionSet.layout_reshape (level : Nat) (s : SelectionSet) :
    ((reshape flag s).layout level).map view = (s.layout level).map view :=
  (Alike.of_reshape fun x _ => Selection.layout_reshape hf _ x).braced level

theorem SelectionSet.bodyLayout_reshape (level : Nat) (s : SelectionSet) :
    ((reshape flag s).bodyLayout level).map view = (s.bodyLayout level).map view :=
  (Alike.of_reshape fun x _ => Selection.layout_reshape hf _ x).body level

theorem VariableDefinition.layout_reshape (level : Nat) (d : VariableDefinition) :
    ((reshape flag d).layout level).map view = (d.layout level).map view := by
  obtain ⟨var, type, default, directives, span⟩ := d
  change (layout level ⟨reshape flag var, reshape flag type, reshape flag default,
    reshape flag directives, Span.zero⟩).map view = _
  simp only [layout, List.map_append, List.map_cons, TypeRef.layout_reshape,
    Value.defaultLayout_reshape hf, Directive.layoutAll_reshape hf]
  rfl

theorem VariableDefinition.layoutAll_reshape (level : Nat) (ds : List VariableDefinition) :
    (VariableDefinition.layoutAll level (reshape flag ds)).map view =
      (VariableDefinition.layoutAll level ds).map view := by
  simp only [layoutAll, isEmpty_reshape]
  split
  · rfl
  · exact (Alike.of_reshape fun d _ => VariableDefinition.layout_reshape hf level d).enclosed _ _

omit hf in
theorem OperationDefinition.isShorthand_reshape (flag : String → Bool → Bool)
    (o : OperationDefinition) : (reshape flag o).isShorthand = o.isShorthand := by
  obtain ⟨kind, name, vars, directives, selections, span⟩ := o
  change isShorthand ⟨kind, reshape flag name, reshape flag vars, reshape flag directives,
    reshape flag selections, Span.zero⟩ = _
  cases name <;> simp [isShorthand]

theorem OperationDefinition.layout_reshape (level : Nat) (o : OperationDefinition) :
    ((reshape flag o).layout level).map view = (o.layout level).map view := by
  have hshort := isShorthand_reshape flag o
  obtain ⟨kind, name, vars, directives, selections, span⟩ := o
  change (layout level ⟨kind, reshape flag name, reshape flag vars, reshape flag directives,
    reshape flag selections, Span.zero⟩).map view = _
  change isShorthand ⟨kind, reshape flag name, reshape flag vars, reshape flag directives,
    reshape flag selections, Span.zero⟩ = _ at hshort
  simp only [layout, hshort]
  split
  · exact SelectionSet.layout_reshape hf level selections
  · simp only [nameLayout, isEmpty_reshape, List.map_append, SelectionSet.bodyLayout_reshape hf,
      VariableDefinition.layoutAll_reshape hf, Directive.layoutAll_reshape hf]
    cases name <;> rfl

theorem FragmentDefinition.layout_reshape (level : Nat) (f : FragmentDefinition) :
    ((reshape flag f).layout level).map view = (f.layout level).map view := by
  obtain ⟨name, condition, directives, selections, span⟩ := f
  change (layout level ⟨reshape flag name, reshape flag condition, reshape flag directives,
    reshape flag selections, Span.zero⟩).map view = _
  simp only [layout, List.map_append, List.map_cons, Directive.layoutAll_reshape hf,
    SelectionSet.bodyLayout_reshape hf]
  rfl

theorem StringValue.descriptionLayout_reshape (level : Nat) (s : Option StringValue) :
    (descriptionLayout level (reshape flag s)).map view = (descriptionLayout level s).map view := by
  cases s with
  | none => rfl
  | some s => simp only [reshape_some, descriptionLayout, List.map_append, hf level s]

theorem InputValueDefinition.layout_reshape (level : Nat) (d : InputValueDefinition) :
    ((reshape flag d).layout level).map view = (d.layout level).map view := by
  obtain ⟨description, name, type, default, directives, span⟩ := d
  change (layout level ⟨reshape flag description, name, reshape flag type, reshape flag default,
    reshape flag directives, Span.zero⟩).map view = _
  simp only [layout, List.map_append, List.map_cons, StringValue.descriptionLayout_reshape hf,
    TypeRef.layout_reshape, Value.defaultLayout_reshape hf, Directive.layoutAll_reshape hf]

omit hf in
theorem InputValueDefinition.anyDescribed_reshape (ds : List InputValueDefinition) :
    anyDescribed (reshape flag ds) = anyDescribed ds := by
  induction ds with
  | nil => rfl
  | cons d ds ih =>
    have hd : (reshape flag d).description.isSome = d.description.isSome := by
      obtain ⟨description, name, type, default, directives, span⟩ := d
      cases description <;> rfl
    simp only [anyDescribed, reshape_cons, List.any_cons] at ih ⊢
    rw [hd, ih]

theorem InputValueDefinition.argumentsLayout_reshape (level : Nat)
    (ds : List InputValueDefinition) :
    (argumentsLayout level (reshape flag ds)).map view = (argumentsLayout level ds).map view := by
  have hitems : ∀ l, Alike view ((reshape flag ds).map (layout l)) (ds.map (layout l)) := fun l =>
    Alike.of_reshape fun d _ => d.layout_reshape hf l
  simp only [argumentsLayout, isEmpty_reshape, anyDescribed_reshape]
  split
  · rfl
  · split
    · exact (hitems _).stacked _ _ level
    · exact (hitems _).enclosed _ _

theorem FieldDefinition.layout_reshape (level : Nat) (d : FieldDefinition) :
    ((reshape flag d).layout level).map view = (d.layout level).map view := by
  obtain ⟨description, name, arguments, type, directives, span⟩ := d
  change (layout level ⟨reshape flag description, name, reshape flag arguments, reshape flag type,
    reshape flag directives, Span.zero⟩).map view = _
  simp only [layout, List.map_append, List.map_cons, StringValue.descriptionLayout_reshape hf,
    InputValueDefinition.argumentsLayout_reshape hf, TypeRef.layout_reshape,
    Directive.layoutAll_reshape hf]

theorem EnumValueDefinition.layout_reshape (level : Nat) (d : EnumValueDefinition) :
    ((reshape flag d).layout level).map view = (d.layout level).map view := by
  obtain ⟨description, name, directives, span⟩ := d
  change (layout level ⟨reshape flag description, name, reshape flag directives,
    Span.zero⟩).map view = _
  simp only [layout, List.map_append, List.map_cons, StringValue.descriptionLayout_reshape hf,
    Directive.layoutAll_reshape hf]

omit hf in
theorem TypeName.listLayout_reshape (separator : Punctuator) (names : List TypeName) :
    listLayout separator (reshape flag names) = listLayout separator names :=
  congrArg (Layout.separated _) (map_reshape flag fun _ _ => rfl)

omit hf in
theorem TypeName.interfacesLayout_reshape (names : List TypeName) :
    interfacesLayout (reshape flag names) = interfacesLayout names := by
  simp only [interfacesLayout, isEmpty_reshape, TypeName.listLayout_reshape]

omit hf in
theorem TypeContent.headLayout_reshape (content : TypeContent) :
    (reshape flag content).headLayout = content.headLayout := by
  cases content with
  | object interfaces _ => exact TypeName.interfacesLayout_reshape interfaces
  | interface interfaces _ => exact TypeName.interfacesLayout_reshape interfaces
  | _ => rfl

theorem TypeContent.tailLayout_reshape (level : Nat) (content : TypeContent) :
    ((reshape flag content).tailLayout level).map view = (content.tailLayout level).map view := by
  cases content with
  | scalar => rfl
  | object _ fields => exact (Alike.of_reshape fun d _ => d.layout_reshape hf _).body level
  | interface _ fields => exact (Alike.of_reshape fun d _ => d.layout_reshape hf _).body level
  | union members =>
    change (tailLayout level (.union (reshape flag members))).map view = _
    simp only [tailLayout, isEmpty_reshape, TypeName.listLayout_reshape]
  | enum values => exact (Alike.of_reshape fun d _ => d.layout_reshape hf _).body level
  | inputObject fields => exact (Alike.of_reshape fun d _ => d.layout_reshape hf _).body level

omit hf in
theorem TypeDefinition.kind_reshape (flag : String → Bool → Bool) (d : TypeDefinition) :
    (reshape flag d).kind = d.kind := by
  obtain ⟨description, name, directives, content, span⟩ := d
  cases content <;> rfl

theorem TypeDefinition.layout_reshape (level : Nat) (d : TypeDefinition) :
    ((reshape flag d).layout level).map view = (d.layout level).map view := by
  have hkind := d.kind_reshape flag
  obtain ⟨description, name, directives, content, span⟩ := d
  change (layout level ⟨reshape flag description, reshape flag name, reshape flag directives,
    reshape flag content, Span.zero⟩).map view = _
  change kind ⟨reshape flag description, reshape flag name, reshape flag directives,
    reshape flag content, Span.zero⟩ = _ at hkind
  simp only [layout, hkind, List.map_append, List.map_cons,
    StringValue.descriptionLayout_reshape hf, TypeContent.headLayout_reshape,
    Directive.layoutAll_reshape hf, TypeContent.tailLayout_reshape hf]
  rfl

theorem SchemaDefinition.layout_reshape (level : Nat) (d : SchemaDefinition) :
    ((reshape flag d).layout level).map view = (d.layout level).map view := by
  obtain ⟨description, directives, types, span⟩ := d
  change (layout level ⟨reshape flag description, reshape flag directives, reshape flag types,
    Span.zero⟩).map view = _
  have htypes := map_reshape flag fun t (_ : t ∈ types) =>
    (rfl : (reshape flag t).layout = t.layout)
  simp only [layout, List.map_append, List.map_cons, StringValue.descriptionLayout_reshape hf,
    Directive.layoutAll_reshape hf, htypes]

theorem DirectiveDefinition.layout_reshape (level : Nat) (d : DirectiveDefinition) :
    ((reshape flag d).layout level).map view = (d.layout level).map view := by
  obtain ⟨description, name, arguments, repeatable, locations, span⟩ := d
  change (layout level ⟨reshape flag description, name, reshape flag arguments, repeatable,
    locations, Span.zero⟩).map view = _
  simp only [layout, List.map_append, List.map_cons, StringValue.descriptionLayout_reshape hf,
    InputValueDefinition.argumentsLayout_reshape hf]

theorem Definition.layout_reshape (level : Nat) (d : Definition) :
    ((reshape flag d).layout level).map view = (d.layout level).map view := by
  cases d with
  | operation d => exact d.layout_reshape hf level
  | fragment d => exact d.layout_reshape hf level
  | schema d => exact d.layout_reshape hf level
  | type d => exact d.layout_reshape hf level
  | directive d => exact d.layout_reshape hf level
  | schemaExtension d =>
    exact congrArg (fun pieces => [Piece.name "extend", .space].map view ++ pieces)
      (d.layout_reshape hf level)
  | typeExtension d =>
    exact congrArg (fun pieces => [Piece.name "extend", .space].map view ++ pieces)
      (d.layout_reshape hf level)

theorem Document.layout_reshape (level : Nat) (d : Document) :
    ((reshape flag d).layout level).map view = (d.layout level).map view :=
  (Alike.of_reshape fun x _ => x.layout_reshape hf level).separated _

end Layouts

end GraphQLText
