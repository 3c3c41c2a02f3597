import GraphQLText.Proofs.Grammar.TypeSystem

/-!
# Where spare tokens stand

Only four tokens of a source can be spare: the keyword of a query that has nothing but its
selections, and a separator before the first interface of a type, the first member of a union or
the first location of a directive.
-/

namespace GraphQLText

set_option autoImplicit false

namespace Phrase

/-- The tokens behind which a separator may stand that separates nothing, with the separator. -/
def leads : List (Token × Punctuator) :=
  [(.name "implements", .ampersand), (.punctuator .equals, .pipe), (.name "on", .pipe)]

/-- Every spare word is the keyword of a query right before its selections or a separator right
behind the token that introduces what it separates. -/
inductive SpareInPlace : Phrase → Prop
  | nil : SpareInPlace []
  | need (t : Token) {ws : Phrase} : SpareInPlace ws → SpareInPlace (.need t :: ws)
  | query {ws : Phrase} : SpareInPlace ws →
      SpareInPlace (⟨.name "query", true⟩ :: .mark .openBrace :: ws)
  | lead {t : Token} {p : Punctuator} {ws : Phrase} : (t, p) ∈ leads → SpareInPlace ws →
      SpareInPlace (.need t :: ⟨.punctuator p, true⟩ :: ws)

namespace SpareInPlace

theorem append {us vs : Phrase} (hu : SpareInPlace us) (hv : SpareInPlace vs) :
    SpareInPlace (us ++ vs) := by
  induction hu with
  | nil => exact hv
  | need t _ ih => exact .need t ih
  | query _ ih => exact .query ih
  | lead h _ ih => exact .lead h ih

theorem single (t : Token) : SpareInPlace [.need t] :=
  .need t .nil

end SpareInPlace

end Phrase

open Phrase (SpareInPlace)

section Lists

variable {α : Type} {G : Phrase → α → Prop} {ws : Phrase} {as : List α}

theorem Many.spareInPlace (h : Many G ws as) (hG : ∀ a ∈ as, ∀ u, G u a → u.SpareInPlace) :
    ws.SpareInPlace := by
  induction h with
  | nil => exact .nil
  | @cons u v a as hu _ ih =>
    exact (hG a (by simp) u hu).append (ih fun b hb => hG b (by simp [hb]))

theorem Enclosed.spareInPlace {opening close : Punctuator} (h : Enclosed opening close G ws as)
    (hG : ∀ a ∈ as, ∀ u, G u a → u.SpareInPlace) : ws.SpareInPlace := by
  cases h with
  | absent => exact .nil
  | present hm _ => exact .need _ ((hm.spareInPlace hG).append (.single _))

theorem Perhaps.spareInPlace {a : Option α} (h : Perhaps G ws a)
    (hG : ∀ u a, G u a → u.SpareInPlace) : ws.SpareInPlace := by
  cases h with
  | absent => exact .nil
  | present hu => exact hG _ _ hu

theorem Row.spareInPlace {separator : Punctuator} (h : Row separator G ws as)
    (hG : ∀ u a, G u a → u.SpareInPlace) : ws.SpareInPlace := by
  induction h with
  | last hu => exact hG _ _ hu
  | cons hu _ ih => exact (hG _ _ hu).append (.need _ ih)

theorem Separated.spareInPlace {t : Token} {separator : Punctuator}
    (h : Separated separator G ws as) (ht : (t, separator) ∈ Phrase.leads)
    (hG : ∀ u a, G u a → u.SpareInPlace) : SpareInPlace (.need t :: ws) := by
  cases h with
  | plain hrow => exact .need t (hrow.spareInPlace hG)
  | led hrow => exact .lead ht (hrow.spareInPlace hG)

theorem Introduced.spareInPlace {t : Token} {separator : Punctuator}
    (h : Introduced t separator G ws as) (ht : (t, separator) ∈ Phrase.leads)
    (hG : ∀ u a, G u a → u.SpareInPlace) : ws.SpareInPlace := by
  cases h with
  | absent => exact .nil
  | present hs => exact hs.spareInPlace ht hG

end Lists

section Values

variable {constant : Bool} {ws : Phrase}

theorem TypeName.Derives.spareInPlace {n : TypeName} (h : TypeName.Derives ws n) :
    ws.SpareInPlace := by
  cases h
  exact .single _

theorem StringValue.Derives.spareInPlace {s : StringValue} (h : StringValue.Derives ws s) :
    ws.SpareInPlace := by
  cases h <;> exact .single _

theorem NamedValue.Derives.spareInPlace {ν : Type} {G : Phrase → ν → Prop} {f : NamedValue ν}
    (h : NamedValue.Derives G ws f) (hG : ∀ u, G u f.value → u.SpareInPlace) :
    ws.SpareInPlace := by
  cases h with
  | intro _ hu => exact .need _ (.need _ (hG _ hu))

theorem Value.Derives.spareInPlace {v : Value} (h : Value.Derives constant ws v) :
    ws.SpareInPlace := by
  induction v using Value.induction generalizing ws with
  | var v => cases h with | var _ hv => cases hv; exact .need _ (.single _)
  | int l => cases h; exact .single _
  | float l => cases h; exact .single _
  | string s => cases h with | string hs => exact hs.spareInPlace
  | boolean b => cases h with | boolean hb => cases hb; exact .single _
  | null => cases h; exact .single _
  | enum l => cases h; exact .single _
  | list l ih =>
    cases h with
    | list _ hm =>
      exact .need _ ((hm.spareInPlace fun v hv _ hu => ih v hv hu).append (.single _))
  | object o ih =>
    cases h with
    | object _ hm =>
      have hfields := hm.spareInPlace fun f hf _ hu => hu.spareInPlace fun _ hw => ih f hf hw
      exact .need _ (hfields.append (.single _))

theorem Argument.spareInPlace_of_derivesAll {arguments : List Argument}
    (h : Argument.DerivesAll constant ws arguments) : ws.SpareInPlace :=
  Enclosed.spareInPlace h fun _ _ _ ha => NamedValue.Derives.spareInPlace ha
    fun _ hu => hu.spareInPlace

theorem Value.spareInPlace_of_derivesDefault {default : Option Value}
    (h : Value.DerivesDefault ws default) : ws.SpareInPlace := by
  cases h with
  | absent => exact .nil
  | present hu => exact .need _ hu.spareInPlace

theorem Directive.spareInPlace_of_derivesAll {ds : List Directive}
    (h : Directive.DerivesAll constant ws ds) : ws.SpareInPlace := by
  refine Many.spareInPlace h fun d _ u hd => ?_
  cases hd with
  | intro _ hu => exact .need _ (.need _ (Argument.spareInPlace_of_derivesAll hu))

theorem TypeRef.Derives.spareInPlace {t : TypeRef} (h : TypeRef.Derives ws t) :
    ws.SpareInPlace := by
  induction h with
  | named hn => exact hn.spareInPlace
  | list _ ih => exact .need _ (ih.append (.single _))
  | nonNull _ _ ih => exact ih.append (.single _)

end Values

section Executable

variable {ws : Phrase}

theorem FieldOf.Label.spareInPlace {aliasName : Option String} (h : FieldOf.Label ws aliasName) :
    ws.SpareInPlace := by
  cases h with
  | absent => exact .nil
  | present => exact .need _ (.single _)

theorem TypeName.spareInPlace_of_behind {t : Token} {name : Option TypeName}
    (h : Behind t TypeName.Derives ws name) : ws.SpareInPlace := by
  cases h with
  | absent => exact .nil
  | present hn => exact .need _ hn.spareInPlace

theorem Selection.Derives.spareInPlace {s : Selection} (h : Selection.Derives ws s) :
    ws.SpareInPlace := by
  induction s using Selection.induction generalizing ws with
  | field f ih =>
    cases h with
    | field hf =>
      cases hf with
      | intro _ hlabel hu hv hw =>
        exact hlabel.spareInPlace.append (.need _ ((Argument.spareInPlace_of_derivesAll hu).append
          ((Directive.spareInPlace_of_derivesAll hv).append
            (hw.spareInPlace fun x hx _ hu => ih x hx hu))))
  | spread s =>
    cases h with
    | spread hs =>
      cases hs with
      | intro _ _ hv => exact .need _ (.need _ (Directive.spareInPlace_of_derivesAll hv))
  | inline f ih =>
    cases h with
    | inline hf =>
      cases hf with
      | intro _ hu hv hw _ =>
        exact .need _ ((TypeName.spareInPlace_of_behind hu).append
          ((Directive.spareInPlace_of_derivesAll hv).append
            (hw.spareInPlace fun x hx _ hu => ih x hx hu)))

theorem SelectionSet.spareInPlace_of_derives {s : SelectionSet} (h : SelectionSet.Derives ws s) :
    ws.SpareInPlace :=
  Enclosed.spareInPlace h fun _ _ _ hx => hx.spareInPlace

theorem VariableDefinition.Derives.spareInPlace {d : VariableDefinition}
    (h : VariableDefinition.Derives ws d) : ws.SpareInPlace := by
  cases h with
  | intro _ hu ht hv hw =>
    cases hu
    exact .need _ (.need _ (.need _ (ht.spareInPlace.append
      ((Value.spareInPlace_of_derivesDefault hv).append
        (Directive.spareInPlace_of_derivesAll hw)))))

theorem OperationDefinition.Derives.spareInPlace {o : OperationDefinition}
    (h : OperationDefinition.Derives ws o) : ws.SpareInPlace := by
  obtain ⟨kind, name, definitions, directives, ⟨items, p⟩, span⟩ := o
  cases h with
  | shorthand _ _ hw _ => exact SelectionSet.spareInPlace_of_derives hw
  | @long _ _ _ _ spare _ hn hu hv hw hne hspare =>
    cases spare with
    | true =>
      -- Nothing stands between the keyword and the selections.
      have hshort := (isShorthand_iff_isBraced hn hu hv hw hne).mpr (hspare.mp rfl)
      obtain ⟨rfl, rfl, rfl, rfl⟩ := parts_of_isShorthand hshort
      cases hn
      cases hv
      cases hu with
      | present _ hnone => exact absurd rfl hnone
      | absent =>
        cases hw with
        | absent => exact absurd rfl hne
        | present hm _ =>
          exact .query ((hm.spareInPlace fun _ _ _ hx => hx.spareInPlace).append (.single _))
    | false =>
      have hname := hn.spareInPlace fun _ _ hx => hx.spareInPlace
      exact .need _ (hname.append ((hu.spareInPlace fun _ _ _ hd => hd.spareInPlace).append
        ((Directive.spareInPlace_of_derivesAll hv).append
          (SelectionSet.spareInPlace_of_derives hw))))

theorem FragmentDefinition.Derives.spareInPlace {f : FragmentDefinition}
    (h : FragmentDefinition.Derives ws f) : ws.SpareInPlace := by
  cases h with
  | intro _ _ hv hw _ =>
    exact .need _ (.need _ (.need _ (.need _ ((Directive.spareInPlace_of_derivesAll hv).append
      (SelectionSet.spareInPlace_of_derives hw)))))

end Executable

section TypeSystem

variable {ws : Phrase}

theorem StringValue.spareInPlace_of_derivesDescription {description : Option StringValue}
    (h : StringValue.DerivesDescription ws description) : ws.SpareInPlace :=
  Perhaps.spareInPlace h fun _ _ hs => hs.spareInPlace

theorem InputValueDefinition.Derives.spareInPlace {d : InputValueDefinition}
    (h : InputValueDefinition.Derives ws d) : ws.SpareInPlace := by
  cases h with
  | intro _ hu ht hv hw =>
    exact (StringValue.spareInPlace_of_derivesDescription hu).append (.need _ (.need _
      (ht.spareInPlace.append ((Value.spareInPlace_of_derivesDefault hv).append
        (Directive.spareInPlace_of_derivesAll hw)))))

theorem InputValueDefinition.spareInPlace_of_derivesAll {ds : List InputValueDefinition}
    (h : InputValueDefinition.DerivesAll ws ds) : ws.SpareInPlace :=
  Enclosed.spareInPlace h fun _ _ _ hd => hd.spareInPlace

theorem FieldDefinition.Derives.spareInPlace {d : FieldDefinition}
    (h : FieldDefinition.Derives ws d) : ws.SpareInPlace := by
  cases h with
  | intro _ hu hv ht hw =>
    exact (StringValue.spareInPlace_of_derivesDescription hu).append (.need _
      ((InputValueDefinition.spareInPlace_of_derivesAll hv).append (.need _
        (ht.spareInPlace.append (Directive.spareInPlace_of_derivesAll hw)))))

theorem EnumValueDefinition.Derives.spareInPlace {d : EnumValueDefinition}
    (h : EnumValueDefinition.Derives ws d) : ws.SpareInPlace := by
  cases h with
  | intro _ hu _ hw =>
    exact (StringValue.spareInPlace_of_derivesDescription hu).append
      (.need _ (Directive.spareInPlace_of_derivesAll hw))

theorem TypeContent.Derives.spareInPlace {us vs : Phrase} {content : TypeContent}
    (h : TypeContent.Derives us vs content) : us.SpareInPlace ∧ vs.SpareInPlace := by
  have hnames : ∀ u (n : TypeName), TypeName.Derives u n → u.SpareInPlace :=
    fun _ _ hn => hn.spareInPlace
  cases h with
  | scalar => exact ⟨.nil, .nil⟩
  | object hu hv =>
    exact ⟨hu.spareInPlace (by decide) hnames, hv.spareInPlace fun _ _ _ hd => hd.spareInPlace⟩
  | interface hu hv =>
    exact ⟨hu.spareInPlace (by decide) hnames, hv.spareInPlace fun _ _ _ hd => hd.spareInPlace⟩
  | union hv => exact ⟨.nil, hv.spareInPlace (by decide) hnames⟩
  | enum hv => exact ⟨.nil, hv.spareInPlace fun _ _ _ hd => hd.spareInPlace⟩
  | inputObject hv => exact ⟨.nil, hv.spareInPlace fun _ _ _ hd => hd.spareInPlace⟩

theorem TypeDefinition.Derives.spareInPlace {d : TypeDefinition}
    (h : TypeDefinition.Derives ws d) : ws.SpareInPlace := by
  cases h with
  | intro _ hu hcontent hv =>
    exact (StringValue.spareInPlace_of_derivesDescription hu).append (.need _ (.need _
      (hcontent.spareInPlace.1.append ((Directive.spareInPlace_of_derivesAll hv).append
        hcontent.spareInPlace.2))))

theorem SchemaDefinition.Derives.spareInPlace {d : SchemaDefinition}
    (h : SchemaDefinition.Derives ws d) : ws.SpareInPlace := by
  cases h with
  | intro _ hu hv hw =>
    have htypes := hw.spareInPlace fun _ _ _ ht => by cases ht; exact .need _ (.need _ (.single _))
    exact (StringValue.spareInPlace_of_derivesDescription hu).append
      (.need _ ((Directive.spareInPlace_of_derivesAll hv).append htypes))

theorem DirectiveDefinition.Derives.spareInPlace {d : DirectiveDefinition}
    (h : DirectiveDefinition.Derives ws d) : ws.SpareInPlace := by
  cases h with
  | intro _ hu hv hw =>
    have hplaces := hw.spareInPlace (t := .name "on") (by decide)
      fun _ _ hl => by cases hl; exact .single _
    have hrepeatable : SpareInPlace (if d.repeatable then [.name "repeatable"] else []) := by
      split
      · exact .single _
      · exact .nil
    exact (StringValue.spareInPlace_of_derivesDescription hu).append (.need _ (.need _ (.need _
      ((InputValueDefinition.spareInPlace_of_derivesAll hv).append (hrepeatable.append hplaces)))))

theorem Definition.Derives.spareInPlace {d : Definition} (h : Definition.Derives ws d) :
    ws.SpareInPlace := by
  cases h with
  | operation hd => exact hd.spareInPlace
  | fragment hd => exact hd.spareInPlace
  | schema hd _ => exact hd.spareInPlace
  | type hd => exact hd.spareInPlace
  | directive hd => exact hd.spareInPlace
  | schemaExtension hd _ _ => exact .need _ hd.spareInPlace
  | typeExtension hd _ _ => exact .need _ hd.spareInPlace

theorem Document.Derives.spareInPlace {d : Document} (h : Document.Derives ws d) :
    ws.SpareInPlace := by
  cases h with
  | intro hm _ => exact hm.spareInPlace fun _ _ _ hd => hd.spareInPlace

end TypeSystem

end GraphQLText
