import GraphQLText.Proofs.Grammar.Spare
import GraphQLText.Proofs.Reading.WellFormed
import GraphQLText.Proofs.RoundTrip.Node
import GraphQLText.Proofs.Writing.Needed
import Mathlib

/-!
# The round trip through whole documents

A query without a name, variables or directives is written as its selections alone. Behind a
definition that may still take a body in braces they would be read as that body, so a document
comes back from its text exactly if no such query follows such a definition. Whatever the text is
read as, it is made of the tokens of the source.
-/

namespace GraphQLText

set_option autoImplicit false

namespace Definition

def isShorthand : Definition → Bool
  | operation d => d.isShorthand
  | _ => false

/-- The other definition may directly follow: its braces would not be taken for a body. -/
def MayPrecede (a b : Definition) : Prop :=
  a.isOpen = true → b.isShorthand = false

instance (a b : Definition) : Decidable (a.MayPrecede b) :=
  inferInstanceAs (Decidable (_ → _))

theorem isShorthand_of_isBraced {ws : Phrase} {d : Definition} (h : Derives ws d)
    (hb : ws.IsBraced) : d.isShorthand = true := by
  have hdescribed : ∀ {u rest : Phrase} {name : String} {s : Option StringValue},
      StringValue.DerivesDescription u s → ¬ Phrase.IsBraced (u ++ .name name :: rest) := by
    intro u rest name s hu
    cases hu with
    | absent => simp [Phrase.IsBraced]
    | present hs => cases hs <;> simp [Phrase.IsBraced]
  cases h with
  | operation ho =>
    cases ho with
    | shorthand _ hshort _ _ => exact hshort
    | long => simp [Phrase.IsBraced] at hb
  | fragment hf => cases hf; simp [Phrase.IsBraced] at hb
  | schema hd => cases hd with | intro _ hu => exact absurd hb (hdescribed hu)
  | type hd => cases hd with | intro _ hu => exact absurd hb (hdescribed hu)
  | directive hd => cases hd with | intro _ hu => exact absurd hb (hdescribed hu)
  | schemaExtension => simp [Phrase.IsBraced] at hb
  | typeExtension => simp [Phrase.IsBraced] at hb

/-- Where no token is spare, a query that is written as its selections alone is spelled so. -/
theorem isBraced_of_isShorthand {ws : Phrase} {d : Definition} (h : Derives ws d)
    (hd : d.isShorthand = true) (hws : ∀ w ∈ ws, w.spare = false) : ws.IsBraced := by
  cases h with
  | @operation _ o ho =>
    obtain ⟨kind, name, definitions, directives, ⟨items, p⟩, span⟩ := o
    cases ho with
    | shorthand _ _ hw hne =>
      cases hw with
      | absent => exact absurd rfl hne
      | present => rfl
    | long _ hn hu hv hw hne hspare =>
      have hkeyword := hws _ (List.mem_cons_self ..)
      have hshort := hspare.mpr
        ((OperationDefinition.isShorthand_iff_isBraced hn hu hv hw hne).mp hd)
      exact absurd (hshort.symm.trans hkeyword) (by simp)
  | _ => exact absurd hd (by simp [isShorthand])

theorem isBraced_append {us : Phrase} {d : Definition} (h : Derives us d) (vs : Phrase) :
    Phrase.IsBraced (us ++ vs) ↔ us.IsBraced := by
  obtain ⟨w, more, rfl, -⟩ := starts us d h
  rfl

section Reshape

variable (flag : String → Bool → Bool)

theorem isShorthand_reshape (d : Definition) : (reshape flag d).isShorthand = d.isShorthand := by
  cases d with
  | operation o => exact o.isShorthand_reshape flag
  | _ => rfl

theorem isOpen_reshape (d : Definition) : (reshape flag d).isOpen = d.isOpen := by
  have hcontent : ∀ content : TypeContent, (reshape flag content).isOpen = content.isOpen := by
    intro content
    cases content <;> simp [reshape, TypeContent.restyle, TypeContent.isOpen]
  cases d with
  | type d => exact hcontent d.content
  | typeExtension d => exact hcontent d.content
  | schemaExtension d => exact isEmpty_reshape flag d.operationTypes
  | _ => rfl

theorem mayPrecede_reshape (a b : Definition) :
    MayPrecede (reshape flag a) (reshape flag b) ↔ MayPrecede a b := by
  rw [MayPrecede, MayPrecede, isOpen_reshape, isShorthand_reshape]

theorem isChain_reshape (ds : List Definition) :
    (reshape flag ds).IsChain MayPrecede ↔ ds.IsChain MayPrecede := by
  rw [reshape_eq_map, List.isChain_map]
  simp only [mayPrecede_reshape]

end Reshape

/-- Definitions that may follow one another are written apart. -/
theorem apart_layouts (level : Nat) {ds : List Definition} (h : ∀ d ∈ ds, d.WellFormed)
    (hchain : ds.IsChain MayPrecede) :
    Apart (Layout.phrases (ds.map (layout level))) (reshape keepBlock ds) := by
  induction ds with
  | nil => exact .nil
  | cons d ds ih =>
    have hrest := ih (fun x hx => h x (by simp [hx])) hchain.tail
    rw [List.map_cons, Layout.phrases_cons]
    refine .cons (derives_layout level (h d (by simp))) hrest fun hopen hbraced => ?_
    cases ds with
    | nil => simp [Phrase.IsBraced] at hbraced
    | cons b ds =>
      have hb := derives_layout level (h b (by simp))
      rw [List.map_cons, Layout.phrases_cons, isBraced_append hb] at hbraced
      have hshort := isShorthand_of_isBraced hb hbraced
      rw [isShorthand_reshape] at hshort
      rw [isOpen_reshape] at hopen
      have hmay : MayPrecede d b := (List.isChain_cons_cons.mp hchain).1
      rw [hmay hopen] at hshort
      exact absurd hshort (by simp)

/-- Where no token is spare, definitions that are spelled apart may follow one another. -/
theorem Apart.isChain {ws : Phrase} {ds : List Definition} (h : Apart ws ds)
    (hws : ∀ w ∈ ws, w.spare = false) : ds.IsChain MayPrecede := by
  induction h with
  | nil => exact .nil
  | @cons u v d ds hu hv hopen ih =>
    have hrest := ih fun w hw => hws w (by simp [hw])
    cases hv with
    | nil => exact .singleton d
    | @cons u' v' b ds hb _ _ =>
      refine .cons_cons (fun ho => ?_) hrest
      cases hshort : b.isShorthand with
      | false => rfl
      | true =>
        have hbraced := isBraced_of_isShorthand hb hshort fun w hw => hws w (by simp [hw])
        exact absurd ((isBraced_append hb v').mpr hbraced) (hopen ho)

end Definition

namespace Document

variable {source : String} {d : Document}

theorem DerivesApart.derives {ws : Phrase} (h : DerivesApart ws d) : Derives ws d := by
  cases h with
  | intro hg hne => exact .intro d hg.derives hne

/-- The tokens of a source have the form of tokens. -/
theorem wellFormed_of_kinds {ws : Phrase} (h : ws.tokens = (TokenStream.ofText source).kinds) :
    ws.WellFormed := by
  intro t ht
  rw [h] at ht
  exact TokenStream.wellFormed_of_mem_ofChars _ _ t ht

theorem wellFormed_of_parse (h : parse source = .ok d) : d.WellFormed := by
  obtain ⟨-, ws, hws, hg⟩ := derivesApart_of_parse h
  exact hg.derives.wellFormed (wellFormed_of_kinds hws)

/-- The text of a well-formed document is made of the tokens of its layout. -/
theorem ofText_layout (hd : d.WellFormed) (level : Nat) :
    (d.layout level).phrase.tokens = (TokenStream.ofText (d.layout level).render).kinds ∧
      (TokenStream.ofText (d.layout level).render).isComplete = true :=
  (d.clean_layout level).ofText_phrase (Document.wellFormed_layout level hd)

/-- A document that was read is written with the tokens of its source, strings of either form
being the same, less those that are spare. -/
theorem kinds_print (h : parse source = .ok d) :
    ∃ ws, ws.tokens = (TokenStream.ofText source).kinds ∧ Derives ws d ∧ ws.SpareInPlace ∧
      (TokenStream.ofText d.print).isComplete = true ∧
      (TokenStream.ofText d.print).kinds.map Token.plain = ws.needed := by
  obtain ⟨-, ws, hws, hapart⟩ := derivesApart_of_parse h
  have hg := hapart.derives
  obtain ⟨hkinds, hcomplete⟩ := ofText_layout (wellFormed_of_parse h) 0
  refine ⟨ws, hws, hg, hg.spareInPlace, hcomplete, ?_⟩
  rw [print, ← hkinds, Layout.tokens_phrase, ← Layout.needed_phrase, needed_layout 0 hg]

def spareSource : String :=
  "query {a} type T implements & I {f: I} union U = | A | B directive @d on | FIELD"

theorem kinds_print_spareSource :
    ∃ d, parse spareSource = .ok d ∧
      ∃ ws, ws.tokens = (TokenStream.ofText spareSource).kinds ∧ Derives ws d ∧ ws.SpareInPlace ∧
        (TokenStream.ofText d.print).isComplete = true ∧
        (TokenStream.ofText d.print).kinds.map Token.plain = ws.needed := by
  have hread : (parse spareSource).toOption.isSome = true := by cbv
  cases h : parse spareSource with
  | error e => simp [h, Except.toOption] at hread
  | ok d => exact ⟨d, rfl, kinds_print h⟩

/-- A well-formed document in which each definition may precede the next comes back from its
text. -/
theorem parse_layout_of_isChain (hd : d.WellFormed)
    (hchain : d.definitions.IsChain Definition.MayPrecede) (level : Nat) :
    ∃ b, parse (d.layout level).render = .ok b ∧ shape b = shape d ∧
      ∀ l, b.layout l = d.layout l := by
  obtain ⟨hkinds, hcomplete⟩ := ofText_layout hd level
  have hg : DerivesApart (d.layout level).phrase (reshape keepBlock d) := by
    rw [phrase_layout]
    exact .intro _ (Definition.apart_layouts level hd.definitions hchain)
      (reshape_ne_nil hd.nonempty)
  obtain ⟨b, hb, hbare⟩ := parse_of_derivesApart hg hcomplete hkinds
  rw [bare_reshape] at hbare
  refine ⟨b, hb, ?_, fun l => ?_⟩
  · rw [← shape_bare b, hbare, shape_reshape]
  · have hb := layout_reshape faithful_bare.blind l b
    have hd := layout_reshape faithful_keepBlock.blind l d
    rw [List.map_id, List.map_id] at hb hd
    rw [← hb, ← hd, ← hbare]
    rfl

/-- Documents of one shape are written with the same tokens, strings of either form being the
same. -/
theorem tokens_layout_of_shape_eq {a b : Document} (h : shape a = shape b) (level : Nat) :
    (a.layout level).tokens.map Token.plain = (b.layout level).tokens.map Token.plain := by
  have hplain : ∀ d : Document, (d.layout level).tokens.map Token.plain =
      Layout.tokens (((shape d).layout level).map Piece.plain) := by
    intro d
    rw [← Layout.tokens_plain]
    exact congrArg Layout.tokens (layout_reshape (blind_plain _) level d).symm
  rw [hplain, hplain, h]

/-- A document that comes back from its text holds no query that would be taken for the body of the
definition before it. -/
theorem isChain_of_parse_print (hd : d.WellFormed) {b : Document} (hb : parse d.print = .ok b)
    (hshape : shape b = shape d) : d.definitions.IsChain Definition.MayPrecede := by
  obtain ⟨-, ws, hws, hg⟩ := derivesApart_of_parse hb
  -- The text has as many tokens as `b` needs, so each of them is needed.
  have hneeded := needed_layout 0 hg.derives
  rw [Layout.needed_phrase, tokens_layout_of_shape_eq hshape] at hneeded
  rw [print, ← (ofText_layout hd 0).1, Layout.tokens_phrase] at hws
  have hspare : ∀ w ∈ ws, w.spare = false := by
    intro w hw
    by_contra hs
    have hlt := Phrase.length_needed_lt hw (by simpa using hs)
    rw [hws, ← hneeded, List.length_map] at hlt
    exact absurd hlt (Nat.lt_irrefl _)
  have hdefinitions : reshape (fun _ _ => false) b.definitions =
      reshape (fun _ _ => false) d.definitions := congrArg Document.definitions hshape
  cases hg with
  | intro hapart _ =>
    have hchain := hapart.isChain hspare
    rw [← Definition.isChain_reshape fun _ _ => false] at hchain ⊢
    rwa [hdefinitions] at hchain

/-- A document that was read comes back from its text, and its text from there, exactly if no
query that is written as its selections alone follows a definition that may still take a body. -/
theorem round_trip_iff (h : parse source = .ok d) :
    (∃ b, parse d.print = .ok b ∧ sameShape b d = true ∧ b.print = d.print) ↔
      d.definitions.IsChain Definition.MayPrecede := by
  have hd := wellFormed_of_parse h
  constructor
  · rintro ⟨b, hb, hsame, -⟩
    exact isChain_of_parse_print hd hb (sameShape_iff.mp hsame)
  · intro hchain
    obtain ⟨b, hb, hshape, hlayout⟩ := parse_layout_of_isChain hd hchain 0
    exact ⟨b, hb, sameShape_iff.mpr hshape, congrArg Layout.render (hlayout 0)⟩

/-- A type without a body may stand before a query with a name, and that before any query. -/
theorem round_trip_iff_of_named :
    ∃ d, parse "type A query B {a} {b}" = .ok d ∧
      ((∃ b, parse d.print = .ok b ∧ sameShape b d = true ∧ b.print = d.print) ↔
        d.definitions.IsChain Definition.MayPrecede) := by
  have hread : (parse "type A query B {a} {b}").toOption.isSome = true := by cbv
  cases h : parse "type A query B {a} {b}" with
  | error e => simp [h, Except.toOption] at hread
  | ok d => exact ⟨d, rfl, round_trip_iff h⟩

/-- The query behind the type comes back as the fields of the type. -/
theorem not_round_trip_of_open :
    ∃ d, parse "type A query {a: B}" = .ok d ∧
      ¬ ∃ b, parse d.print = .ok b ∧ sameShape b d = true ∧ b.print = d.print := by
  have hlost : ((parse "type A query {a: B}").toOption.bind fun d =>
      (parse d.print).toOption.map fun b => sameShape b d) = some false := by cbv
  cases h : parse "type A query {a: B}" with
  | error e => simp [h, Except.toOption] at hlost
  | ok d =>
    refine ⟨d, rfl, ?_⟩
    rintro ⟨b, hb, hsame, -⟩
    simp [h, hb, hsame, Except.toOption] at hlost

end Document

end GraphQLText
