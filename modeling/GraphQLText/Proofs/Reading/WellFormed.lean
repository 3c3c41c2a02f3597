import GraphQLText.Proofs.Grammar.TypeSystem
import GraphQLText.Proofs.Grammar.WellFormed

/-!
# What sources spell is well formed

The tokens of a source have the form of tokens, and then the nodes that they spell are well formed:
the grammar asks for all the rest.
-/

namespace GraphQLText

set_option autoImplicit false

section Lists

variable {α : Type} {G : Phrase → α → Prop} {P : α → Prop} {ws : Phrase} {as : List α}

/-- What the phrase of an item makes of it holds of all items. -/
theorem Many.forall_of_wellFormed (h : Many G ws as) (hws : ws.WellFormed)
    (hP : ∀ a ∈ as, ∀ u, G u a → u.WellFormed → P a) : ∀ a ∈ as, P a := by
  induction h with
  | nil => simp
  | @cons u v a as hu _ ih =>
    obtain ⟨hwu, hwv⟩ := (Phrase.wellFormed_append u v).mp hws
    rw [List.forall_mem_cons]
    exact ⟨hP a (by simp) u hu hwu, ih hwv fun b hb => hP b (by simp [hb])⟩

theorem Enclosed.forall_of_wellFormed {opening close : Punctuator}
    (h : Enclosed opening close G ws as) (hws : ws.WellFormed)
    (hP : ∀ a ∈ as, ∀ u, G u a → u.WellFormed → P a) : ∀ a ∈ as, P a := by
  cases h with
  | absent => simp
  | @present u _ hm _ =>
    simp only [Phrase.wellFormed_cons, Phrase.wellFormed_append] at hws
    exact hm.forall_of_wellFormed hws.2.1 hP

theorem Row.forall_of_wellFormed {separator : Punctuator} (h : Row separator G ws as)
    (hws : ws.WellFormed) (hP : ∀ a ∈ as, ∀ u, G u a → u.WellFormed → P a) : ∀ a ∈ as, P a := by
  induction h with
  | @last u a hu => simpa using hP a (by simp) u hu hws
  | @cons u v a as hu _ ih =>
    simp only [Phrase.wellFormed_cons, Phrase.wellFormed_append] at hws
    rw [List.forall_mem_cons]
    exact ⟨hP a (by simp) u hu hws.1, ih hws.2.2 fun b hb => hP b (by simp [hb])⟩

theorem Introduced.forall_of_wellFormed {t : Token} {separator : Punctuator}
    (h : Introduced t separator G ws as) (hws : ws.WellFormed)
    (hP : ∀ a ∈ as, ∀ u, G u a → u.WellFormed → P a) : ∀ a ∈ as, P a := by
  cases h with
  | absent => simp
  | present hs =>
    simp only [Phrase.wellFormed_cons] at hws
    cases hs with
    | plain hrow => exact hrow.forall_of_wellFormed hws.2 hP
    | led hrow => exact hrow.forall_of_wellFormed ((Phrase.wellFormed_cons _ _).mp hws.2).2 hP

end Lists

section Values

variable {constant : Bool} {ws : Phrase}

theorem TypeName.Derives.wellFormed {n : TypeName} (h : TypeName.Derives ws n)
    (hws : ws.WellFormed) : n.WellFormed := by
  cases h
  exact ((Phrase.wellFormed_cons _ _).mp hws).1

theorem Value.Derives.wellFormed {v : Value} (h : Value.Derives constant ws v)
    (hws : ws.WellFormed) : v.WellFormed constant := by
  induction v using Value.induction generalizing ws with
  | var v =>
    cases h with
    | var hc hv =>
      cases hv
      simp only [Phrase.wellFormed_cons] at hws
      exact .var hc hws.2.1
  | int l => cases h; exact .int ((Phrase.wellFormed_cons _ _).mp hws).1
  | float l => cases h; exact .float ((Phrase.wellFormed_cons _ _).mp hws).1
  | string s => exact .string s
  | boolean b => exact .boolean b
  | null => exact .null
  | enum l =>
    cases h with
    | enum _ hname => exact .enum ⟨((Phrase.wellFormed_cons _ _).mp hws).1, hname⟩
  | list l ih =>
    cases h with
    | list _ hm =>
      simp only [Phrase.wellFormed_cons, Phrase.wellFormed_append] at hws
      exact .list l (hm.forall_of_wellFormed hws.2.1 fun v hv u hu hwu => ih v hv hu hwu)
  | object o ih =>
    cases h with
    | object _ hm =>
      simp only [Phrase.wellFormed_cons, Phrase.wellFormed_append] at hws
      have hfields := hm.forall_of_wellFormed (P := NamedValue.WellFormed constant) hws.2.1
        fun f hf u hu hwu => by
          cases hu with
          | intro _ hv =>
            simp only [Phrase.wellFormed_cons] at hwu
            exact ⟨hwu.1, ih f hf hv hwu.2.2⟩
      exact .object o (fun f hf => (hfields f hf).1) fun f hf => (hfields f hf).2

theorem Argument.Derives.wellFormed {a : Argument} (h : Argument.Derives constant ws a)
    (hws : ws.WellFormed) : a.WellFormed constant := by
  cases h with
  | intro _ hv =>
    simp only [Phrase.wellFormed_cons] at hws
    exact ⟨hws.1, hv.wellFormed hws.2.2⟩

theorem Value.wellFormed_of_derivesDefault {default : Option Value}
    (h : Value.DerivesDefault ws default) (hws : ws.WellFormed) :
    ∀ v ∈ default, v.WellFormed true := by
  cases h with
  | absent => simp
  | present hu =>
    rintro v ⟨⟩
    exact hu.wellFormed ((Phrase.wellFormed_cons _ _).mp hws).2

theorem Directive.Derives.wellFormed {d : Directive} (h : Directive.Derives constant ws d)
    (hws : ws.WellFormed) : d.WellFormed constant := by
  cases h with
  | intro _ hu =>
    simp only [Phrase.wellFormed_cons] at hws
    exact ⟨hws.2.1, hu.forall_of_wellFormed hws.2.2 fun a _ u ha => Argument.Derives.wellFormed ha⟩

theorem Directive.wellFormed_of_derivesAll {ds : List Directive}
    (h : Directive.DerivesAll constant ws ds) (hws : ws.WellFormed) :
    ∀ d ∈ ds, d.WellFormed constant :=
  Many.forall_of_wellFormed h hws fun _ _ _ hd => hd.wellFormed

theorem TypeRef.Derives.wellFormed {t : TypeRef} (h : TypeRef.Derives ws t)
    (hws : ws.WellFormed) : t.WellFormed := by
  induction h with
  | named hn => exact .named (hn.wellFormed hws)
  | list _ ih =>
    simp only [Phrase.wellFormed_cons, Phrase.wellFormed_append] at hws
    exact .list (ih hws.2.1)
  | nonNull _ hne ih => exact .nonNull (ih ((Phrase.wellFormed_append _ _).mp hws).1) hne

end Values

section Executable

variable {ws : Phrase}

theorem FragmentSpread.Derives.wellFormed {s : FragmentSpread} (h : FragmentSpread.Derives ws s)
    (hws : ws.WellFormed) : s.WellFormed := by
  cases h with
  | intro _ hne hv =>
    simp only [Phrase.wellFormed_cons] at hws
    exact ⟨hws.2.1, hne, Directive.wellFormed_of_derivesAll hv hws.2.2⟩

theorem FieldOf.Label.wellFormed {aliasName : Option String} (h : FieldOf.Label ws aliasName)
    (hws : ws.WellFormed) : ∀ a ∈ aliasName, isName a = true := by
  cases h with
  | absent => simp
  | present a =>
    rintro _ ⟨⟩
    exact ((Phrase.wellFormed_cons _ _).mp hws).1

theorem TypeName.wellFormed_of_behind {t : Token} {name : Option TypeName}
    (h : Behind t TypeName.Derives ws name) (hws : ws.WellFormed) :
    ∀ n ∈ name, n.WellFormed := by
  cases h with
  | absent => simp
  | present hn =>
    rintro _ ⟨⟩
    exact hn.wellFormed ((Phrase.wellFormed_cons _ _).mp hws).2

theorem Selection.Derives.wellFormed {s : Selection} (h : Selection.Derives ws s)
    (hws : ws.WellFormed) : s.WellFormed := by
  induction s using Selection.induction generalizing ws with
  | field f ih =>
    cases h with
    | field hf =>
      cases hf with
      | intro _ hlabel hu hv hw =>
        simp only [Phrase.wellFormed_cons, Phrase.wellFormed_append] at hws
        obtain ⟨hwl, hwn, hwu, hwv, hww⟩ := hws
        refine .field f ⟨hlabel.wellFormed hwl, hwn, ?_, Directive.wellFormed_of_derivesAll hv hwv⟩
          (hw.forall_of_wellFormed hww fun x hx u hu hwu => ih x hx hu hwu)
        exact hu.forall_of_wellFormed hwu fun _ _ _ ha => Argument.Derives.wellFormed ha
  | spread s => cases h with | spread hs => exact .spread (hs.wellFormed hws)
  | inline f ih =>
    cases h with
    | inline hf =>
      cases hf with
      | intro _ hu hv hw hne =>
        simp only [Phrase.wellFormed_cons, Phrase.wellFormed_append] at hws
        obtain ⟨-, hwu, hwv, hww⟩ := hws
        exact .inline f ⟨TypeName.wellFormed_of_behind hu hwu,
          Directive.wellFormed_of_derivesAll hv hwv, hne⟩
          (hw.forall_of_wellFormed hww fun x hx u hu hwu => ih x hx hu hwu)

theorem SelectionSet.wellFormed_of_derives {s : SelectionSet} (h : SelectionSet.Derives ws s)
    (hws : ws.WellFormed) : ∀ x ∈ s.items, x.WellFormed :=
  Enclosed.forall_of_wellFormed h hws fun _ _ _ hx => hx.wellFormed

theorem VariableDefinition.Derives.wellFormed {d : VariableDefinition}
    (h : VariableDefinition.Derives ws d) (hws : ws.WellFormed) : d.WellFormed := by
  cases h with
  | intro _ hu ht hv hw =>
    cases hu
    simp only [Phrase.wellFormed_cons, Phrase.wellFormed_append] at hws
    obtain ⟨⟨-, hwn, -⟩, -, hwt, hwv, hww⟩ := hws
    exact ⟨hwn, ht.wellFormed hwt, Value.wellFormed_of_derivesDefault hv hwv,
      Directive.wellFormed_of_derivesAll hw hww⟩

theorem OperationDefinition.Derives.wellFormed {o : OperationDefinition}
    (h : OperationDefinition.Derives ws o) (hws : ws.WellFormed) : o.WellFormed := by
  cases h with
  | shorthand _ hshort hw hne =>
    obtain ⟨-, hname, hvariables, hdirectives⟩ := parts_of_isShorthand hshort
    exact ⟨by simp [hname], by simp [hvariables], by simp [hdirectives], hne,
      SelectionSet.wellFormed_of_derives hw hws⟩
  | long _ hn hu hv hw hne =>
    simp only [Phrase.wellFormed_cons, Phrase.wellFormed_append] at hws
    obtain ⟨-, hwn, hwu, hwv, hww⟩ := hws
    refine ⟨?_, hu.forall_of_wellFormed hwu fun _ _ _ hd => hd.wellFormed,
      Directive.wellFormed_of_derivesAll hv hwv, hne, SelectionSet.wellFormed_of_derives hw hww⟩
    intro n hname
    rw [Option.mem_def.mp hname] at hn
    cases hn with
    | present hn => exact hn.wellFormed hwn

theorem FragmentDefinition.Derives.wellFormed {f : FragmentDefinition}
    (h : FragmentDefinition.Derives ws f) (hws : ws.WellFormed) : f.WellFormed := by
  cases h with
  | intro _ hne hv hw hnonempty =>
    simp only [Phrase.wellFormed_cons, Phrase.wellFormed_append] at hws
    obtain ⟨-, hwn, -, hwc, hwv, hww⟩ := hws
    exact ⟨hwn, hne, hwc, Directive.wellFormed_of_derivesAll hv hwv, hnonempty,
      SelectionSet.wellFormed_of_derives hw hww⟩

end Executable

section TypeSystem

variable {ws : Phrase}

theorem InputValueDefinition.Derives.wellFormed {d : InputValueDefinition}
    (h : InputValueDefinition.Derives ws d) (hws : ws.WellFormed) : d.WellFormed := by
  cases h with
  | intro _ _ ht hv hw =>
    simp only [Phrase.wellFormed_cons, Phrase.wellFormed_append] at hws
    obtain ⟨-, hwn, -, hwt, hwv, hww⟩ := hws
    exact ⟨hwn, ht.wellFormed hwt, Value.wellFormed_of_derivesDefault hv hwv,
      Directive.wellFormed_of_derivesAll hw hww⟩

theorem InputValueDefinition.wellFormed_of_derivesAll {ds : List InputValueDefinition}
    (h : InputValueDefinition.DerivesAll ws ds) (hws : ws.WellFormed) :
    ∀ d ∈ ds, d.WellFormed :=
  Enclosed.forall_of_wellFormed h hws fun _ _ _ hd => hd.wellFormed

theorem FieldDefinition.Derives.wellFormed {d : FieldDefinition}
    (h : FieldDefinition.Derives ws d) (hws : ws.WellFormed) : d.WellFormed := by
  cases h with
  | intro _ _ hv ht hw =>
    simp only [Phrase.wellFormed_cons, Phrase.wellFormed_append] at hws
    obtain ⟨-, hwn, hwv, -, hwt, hww⟩ := hws
    exact ⟨hwn, InputValueDefinition.wellFormed_of_derivesAll hv hwv, ht.wellFormed hwt,
      Directive.wellFormed_of_derivesAll hw hww⟩

theorem EnumValueDefinition.Derives.wellFormed {d : EnumValueDefinition}
    (h : EnumValueDefinition.Derives ws d) (hws : ws.WellFormed) : d.WellFormed := by
  cases h with
  | intro _ _ henum hw =>
    simp only [Phrase.wellFormed_cons, Phrase.wellFormed_append] at hws
    exact ⟨hws.2.1, henum, Directive.wellFormed_of_derivesAll hw hws.2.2⟩

theorem TypeName.wellFormed_of_introduced {t : Token} {separator : Punctuator}
    {names : List TypeName} (h : Introduced t separator TypeName.Derives ws names)
    (hws : ws.WellFormed) : ∀ n ∈ names, n.WellFormed :=
  h.forall_of_wellFormed hws fun _ _ _ hn => hn.wellFormed

theorem TypeContent.Derives.wellFormed {us vs : Phrase} {content : TypeContent}
    (h : TypeContent.Derives us vs content) (hus : us.WellFormed) (hvs : vs.WellFormed) :
    content.WellFormed := by
  cases h with
  | scalar => trivial
  | object hu hv =>
    exact ⟨TypeName.wellFormed_of_introduced hu hus,
      hv.forall_of_wellFormed hvs fun _ _ _ hd => hd.wellFormed⟩
  | interface hu hv =>
    exact ⟨TypeName.wellFormed_of_introduced hu hus,
      hv.forall_of_wellFormed hvs fun _ _ _ hd => hd.wellFormed⟩
  | union hv => exact TypeName.wellFormed_of_introduced hv hvs
  | enum hv => exact hv.forall_of_wellFormed hvs fun _ _ _ hd => hd.wellFormed
  | inputObject hv => exact hv.forall_of_wellFormed hvs fun _ _ _ hd => hd.wellFormed

theorem TypeDefinition.Derives.wellFormed {d : TypeDefinition} (h : TypeDefinition.Derives ws d)
    (hws : ws.WellFormed) : d.WellFormed := by
  cases h with
  | intro _ _ hcontent hv =>
    simp only [Phrase.wellFormed_cons, Phrase.wellFormed_append] at hws
    obtain ⟨-, -, hwn, hwh, hwv, hwt⟩ := hws
    exact ⟨hwn, Directive.wellFormed_of_derivesAll hv hwv, hcontent.wellFormed hwh hwt⟩

theorem SchemaDefinition.Derives.wellFormed {d : SchemaDefinition}
    (h : SchemaDefinition.Derives ws d) (hws : ws.WellFormed) : d.PartsWellFormed := by
  cases h with
  | intro _ _ hv hw =>
    simp only [Phrase.wellFormed_cons, Phrase.wellFormed_append] at hws
    obtain ⟨-, -, hwv, hww⟩ := hws
    refine ⟨Directive.wellFormed_of_derivesAll hv hwv,
      hw.forall_of_wellFormed hww fun t _ u ht hwu => ?_⟩
    cases ht
    simp only [Phrase.wellFormed_cons] at hwu
    exact hwu.2.2.1

theorem DirectiveDefinition.Derives.wellFormed {d : DirectiveDefinition}
    (h : DirectiveDefinition.Derives ws d) (hws : ws.WellFormed) : d.WellFormed := by
  cases h with
  | intro _ _ hv hw =>
    simp only [Phrase.wellFormed_cons, Phrase.wellFormed_append] at hws
    obtain ⟨-, -, -, hwn, hwv, -⟩ := hws
    exact ⟨hwn, InputValueDefinition.wellFormed_of_derivesAll hv hwv, hw.ne_nil⟩

theorem Definition.Derives.wellFormed {d : Definition} (h : Definition.Derives ws d)
    (hws : ws.WellFormed) : d.WellFormed := by
  cases h with
  | operation hd => exact hd.wellFormed hws
  | fragment hd => exact hd.wellFormed hws
  | schema hd hne => exact ⟨hd.wellFormed hws, hne⟩
  | type hd => exact hd.wellFormed hws
  | directive hd => exact hd.wellFormed hws
  | schemaExtension hd hnone hadds =>
    exact ⟨hd.wellFormed ((Phrase.wellFormed_cons _ _).mp hws).2, hnone, hadds⟩
  | typeExtension hd hnone hadds =>
    exact ⟨hd.wellFormed ((Phrase.wellFormed_cons _ _).mp hws).2, hnone, hadds⟩

/-- A document that is spelled by well-formed tokens is well formed. -/
theorem Document.Derives.wellFormed {d : Document} (h : Document.Derives ws d)
    (hws : ws.WellFormed) : d.WellFormed := by
  cases h with
  | intro hm hne => exact ⟨hne, hm.forall_of_wellFormed hws fun _ _ _ hd => hd.wellFormed⟩

end TypeSystem

end GraphQLText
