import GraphQLText.Document.Reader
import GraphQLText.Proofs.Reading.Schema

/-!
# Reading documents takes their phrases

A source is read as a document exactly if its tokens are a phrase of the document in which every
brace belongs to the definition before it if it can.
-/

namespace GraphQLText

set_option autoImplicit false

open Reader

namespace SchemaPart

def keyword : SchemaPart → String
  | schema => "schema"
  | directive => "directive"
  | type kind => kind.keyword

theorem ofKeyword?_eq_some_iff {s : String} {part : SchemaPart} :
    ofKeyword? s = some part ↔ s = part.keyword := by
  constructor
  · intro h
    unfold ofKeyword? at h
    split at h
    · obtain rfl := Option.some.inj h
      rfl
    · obtain rfl := Option.some.inj h
      rfl
    · obtain ⟨kind, hkind, rfl⟩ := Option.map_eq_some_iff.mp h
      exact TypeKind.ofKeyword?_eq_some_iff.mp hkind
  · rintro rfl
    cases part with
    | schema => rfl
    | directive => rfl
    | type kind => cases kind <;> rfl

def readBody (description : Option StringValue) : SchemaPart → Reader (Span → Definition)
  | schema => do
    let d ← SchemaDefinition.readBody description
    return fun span => .schema (d span)
  | directive => do
    let d ← DirectiveDefinition.readBody description
    return fun span => .directive (d span)
  | type kind => do
    let d ← TypeDefinition.readBody kind description
    return fun span => .type (d span)

end SchemaPart

namespace Definition

def bars (d : Definition) : List Token :=
  [.name "implements", .punctuator .ampersand, .punctuator .equals, .punctuator .pipe,
    .punctuator .atSign, .punctuator .openParen] ++
    if d.isOpen then [.punctuator .openBrace] else []

/-- What reading a definition comes to: its phrase was taken, and no body in braces was left. -/
def Taken (c : Cursor) (d : Definition) (e : Cursor) : Prop :=
  (d.isOpen = true → e.next? ≠ some (.punctuator .openBrace)) ∧ ∃ ws, Derives ws d ∧ c.Takes ws e

theorem sound_readTypeSystem (c : Cursor) : Always readTypeSystem c (Taken c) := by
  simp only [readTypeSystem, always_located, always_bind, always_token]
  refine (StringValue.sound_readDescription c).mono ?_
  rintro description d₁ ⟨u, hu, htu⟩ t part hn hpart
  split at hpart
  · obtain rfl := SchemaPart.ofKeyword?_eq_some_iff.mp hpart
    cases part with
    | schema =>
      simp only [SchemaDefinition.readBody, always_bind, always_ite, always_pure]
      refine (SchemaDefinition.sound_readParts description _).mono ?_
      rintro f d ⟨_, hsame, ws, ht, hg⟩
      refine ⟨fun _ => always_fail, fun hne => ⟨by simp [isOpen], _, ?_, htu.append (.cons hn ht)⟩⟩
      refine .schema (hg u _ hu) ?_
      rw [(hsame _).2]
      simpa using hne
    | directive =>
      simp only [always_bind, always_pure]
      refine (DirectiveDefinition.sound_readBody description _).mono ?_
      rintro f d ⟨ws, ht, hg⟩
      exact ⟨by simp [isOpen], _, .directive (hg u _ hu), htu.append (.cons hn ht)⟩
    | type kind =>
      simp only [always_bind, always_pure]
      refine (TypeDefinition.sound_readBody kind description _).mono ?_
      rintro f d ⟨hopen, _, ws, ht, hg⟩
      exact ⟨(hopen _).2, _, .type (hg u _ hu), htu.append (.cons hn ht)⟩
  · exact absurd hpart (by simp)

theorem sound_readExtension (c : Cursor) : Always readExtension c (Taken c) := by
  simp only [readExtension, always_located, always_bind, always_expect, always_token]
  intro hextend t kind hn hkind
  split at hkind
  · obtain rfl := Option.some.inj hkind
    simp only [always_bind, always_ite, always_pure]
    refine (SchemaDefinition.sound_readParts none _).mono ?_
    rintro f d ⟨hopen, hsame, ws, ht, hg⟩
    refine ⟨fun _ => always_fail, fun hadds => ⟨(hopen _).2, _, ?_, .cons hextend (.cons hn ht)⟩⟩
    refine .schemaExtension (hg [] _ .absent) (hopen _).1 ?_
    rw [(hsame _).1]
    simpa using hadds
  · obtain ⟨kind, hname, rfl⟩ := Option.map_eq_some_iff.mp hkind
    obtain rfl := TypeKind.ofKeyword?_eq_some_iff.mp hname
    simp only [always_bind, always_ite, always_pure]
    refine (TypeDefinition.sound_readBody kind none _).mono ?_
    rintro f d ⟨hopen, hsame, ws, ht, hg⟩
    refine ⟨fun _ => always_fail, fun hadds => ⟨(hopen _).2, _, ?_, .cons hextend (.cons hn ht)⟩⟩
    refine .typeExtension (hg [] _ .absent) (hopen _).1 ?_
    rw [hsame _ Span.zero]
    simpa using hadds
  · exact absurd hkind (by simp)

theorem sound_read (c : Cursor) : Always read c (Taken c) := by
  have hoperation : Always (operation <$> OperationDefinition.read) c (Taken c) := by
    rw [always_map]
    refine (OperationDefinition.sound_read c).mono ?_
    rintro o d ⟨ws, hg, ht⟩
    exact ⟨by simp [isOpen], ws, .operation hg, ht⟩
  rw [read, always_bind, always_peek]
  split
  · exact hoperation
  · exact sound_readTypeSystem c
  · exact sound_readTypeSystem c
  · rw [always_map]
    refine (FragmentDefinition.sound_read c).mono ?_
    rintro f d ⟨ws, hg, ht⟩
    exact ⟨by simp [isOpen], ws, .fragment hg, ht⟩
  · exact sound_readExtension c
  · simp only [always_ite]
    exact ⟨fun _ => hoperation, fun _ => ⟨fun _ => sound_readTypeSystem c, fun _ => always_fail⟩⟩
  · exact always_fail

/-- A description or the keyword of a part tells that the definition belongs to the type system. -/
theorem read_of_part (part : SchemaPart) {u rest : Phrase} {description : Option StringValue}
    {c d : Cursor} (hu : StringValue.DerivesDescription u description)
    (ht : c.Takes (u ++ .name part.keyword :: rest) d) : read c = readTypeSystem c := by
  have hnext : (∃ v, c.next? = some (.string v)) ∨ (∃ v, c.next? = some (.blockString v)) ∨
      c.next? = some (.name part.keyword) := by
    cases hu with
    | absent => exact .inr (.inr ht.1)
    | present hs =>
      cases hs with
      | quoted => exact .inl ⟨_, ht.1⟩
      | block => exact .inr (.inl ⟨_, ht.1⟩)
  rw [read, bind_apply, peek]
  rcases hnext with ⟨v, hn⟩ | ⟨v, hn⟩ | hn
  · rw [hn]
  · rw [hn]
  · rw [hn]
    cases part with
    | schema => rfl
    | directive => rfl
    | type kind => cases kind <;> rfl

theorem readTypeSystem_eq :
    readTypeSystem = located (StringValue.readDescription? >>= fun description =>
      token .typeSystemDefinition (fun
        | .name s => SchemaPart.ofKeyword? s
        | _ => none) >>= SchemaPart.readBody description) :=
  rfl

/-- A definition of the type system is read back if what follows its keyword is. -/
theorem ends_read_of_part (part : SchemaPart) {u rest : Phrase} {description : Option StringValue}
    {c d : Cursor} {Q : Definition → Cursor → Prop}
    (hu : StringValue.DerivesDescription u description)
    (ht : c.Takes (u ++ .name part.keyword :: rest) d)
    (hpart : ∀ s e, bare s = bare description → e.Takes rest d →
      Ends (SchemaPart.readBody s part) e fun f e => ∀ span, Q (f span) e) : Ends read c Q := by
  obtain ⟨d₁, htu, hkey, htr⟩ := Cursor.takes_append.mp ht
  rw [Ends, read_of_part part hu ht, ← Ends, readTypeSystem_eq]
  simp only [ends_located, ends_bind, ends_token]
  refine (StringValue.complete_readDescription hu htu hkey).mono ?_
  rintro s _ ⟨rfl, h⟩
  refine ⟨_, part, hkey, SchemaPart.ofKeyword?_eq_some_iff.mpr rfl, ?_⟩
  exact (hpart s _ h htr).mono fun f e hq => hq _

/-- The keyword of an operation, or its opening brace, tells that it is one. -/
theorem read_of_operation {ws : Phrase} {o : OperationDefinition} {c d : Cursor}
    (hg : OperationDefinition.Derives ws o) (ht : c.Takes ws d) :
    read c = (operation <$> OperationDefinition.read : Reader Definition) c := by
  have hnext : c.next? = some (.punctuator .openBrace) ∨
      c.next? = some (.name o.kind.keyword) := by
    obtain ⟨kind, name, vars, directives, ⟨items, p⟩, span⟩ := o
    cases hg with
    | shorthand _ _ hw hitems =>
      cases hw with
      | absent => exact absurd rfl hitems
      | present => exact .inl ht.1
    | long => exact .inr ht.1
  rw [read, bind_apply, peek]
  rcases hnext with hn | hn
  · rw [hn]
  · rw [hn]
    cases o.kind <;> rfl

section Wrapped

variable {δ : Type} [HasShape δ] (make : δ → Definition) {r : Reader (Span → δ)} {node : δ}
  {c d : Cursor}

/-- A node is read back within a definition if it is read back. -/
theorem ends_wrapped (hmake : ∀ a, bare a = bare node → bare (make a) = bare (make node))
    (hr : Ends r c fun f e => e = d ∧ ∀ span, bare (f span) = bare node) :
    Ends (do
      let f ← r
      return fun span => make (f span)) c fun f e =>
        ∀ span, e = d ∧ bare (f span) = bare (make node) := by
  simp only [ends_bind, ends_pure]
  refine hr.mono ?_
  rintro f _ ⟨rfl, h⟩ span
  exact ⟨rfl, hmake _ (h span)⟩

/-- Whether something adds nothing is not told from its spans, so what is read back for something
that adds to another is not turned down. -/
theorem ends_unlessNothing {addsNothing : δ → Bool}
    (hbare : ∀ a, addsNothing (bare a) = addsNothing a) (hadds : addsNothing node = false)
    (hmake : ∀ a, bare a = bare node → bare (make a) = bare (make node))
    (hr : Ends r c fun f e => e = d ∧ ∀ span, bare (f span) = bare node) :
    Ends (do
      let f ← r
      if addsNothing (f Span.zero) then
        fail .typeSystemExtension
      else
        return fun span => make (f span)) c fun f e =>
          ∀ span, e = d ∧ bare (f span) = bare (make node) := by
  simp only [ends_bind, ends_ite, ends_pure]
  refine hr.mono ?_
  rintro f _ ⟨rfl, h⟩
  refine ⟨fun hf => ?_, fun _ span => ⟨rfl, hmake _ (h span)⟩⟩
  rw [← hbare, h, hbare, hadds] at hf
  cases hf

end Wrapped

theorem complete_read : Complete read Derives bars := by
  intro ws node c d hg ht hd
  cases hg with
  | @operation _ o hg =>
    have hmap : Ends (operation <$> OperationDefinition.read) c
        fun b e => e = d ∧ bare b = bare (operation o) :=
      (OperationDefinition.complete_read ws o c d hg ht (Cursor.clear_nil d)).map fun _ h =>
        congrArg operation h
    rwa [Ends, ← read_of_operation hg ht] at hmap
  | @fragment _ f hg =>
    have hmap : Ends (fragment <$> FragmentDefinition.read) c
        fun b e => e = d ∧ bare b = bare (fragment f) :=
      (FragmentDefinition.complete_read ws f c d hg ht (Cursor.clear_nil d)).map fun _ h =>
        congrArg fragment h
    cases hg
    rw [read, ends_bind, ends_peek, ht.1]
    exact hmap
  | @schema _ s hg hne =>
    cases hg with
    | @intro u v w _ hu hv hw =>
      refine ends_read_of_part .schema hu ht fun description e h₁ htr => ?_
      exact ends_wrapped schema (fun _ h => congrArg schema h)
        (SchemaDefinition.complete_readBody h₁ hv hw hne htr
          (hd.mono (by simp +contextual [bars, SchemaDefinition.bars, hne])))
  | @type _ t hg =>
    cases hg with
    | @intro u head v tail _ hu hcontent hv =>
      refine ends_read_of_part (.type t.kind) hu ht fun description e h₁ htr => ?_
      exact ends_wrapped type (fun _ h => congrArg type h)
        (TypeDefinition.complete_readBody h₁ hcontent hv htr (hd.mono fun _ h => h))
  | @directive _ s hg =>
    cases hg with
    | @intro u v w _ hu hv hw =>
      refine ends_read_of_part .directive hu ht fun description e h₁ htr => ?_
      exact ends_wrapped directive (fun _ h => congrArg directive h)
        (DirectiveDefinition.complete_readBody h₁ hv hw htr (hd.mono (by simp [bars])))
  -- an extension is not described, so its two keywords are right ahead
  | @schemaExtension _ s hg hnone hadds =>
    cases hg with
    | @intro u v w _ hu hv hw =>
      obtain ⟨description, directives, types, span⟩ := s
      obtain rfl : description = none := hnone
      cases hu
      obtain ⟨hextend, hkey, htr⟩ := ht
      rw [read, ends_bind, ends_peek, hextend]
      simp only [readExtension, ends_located, ends_bind, ends_expect, ends_token]
      refine ⟨hextend, _, none, hkey, rfl, ?_⟩
      have hparts := SchemaDefinition.complete_readParts rfl hv hw htr
        (hd.mono (by simp +contextual [bars, SchemaDefinition.bars, isOpen]))
      exact (ends_unlessNothing schemaExtension SchemaDefinition.addsNothing_bare hadds
        (fun _ h => congrArg schemaExtension h) hparts).mono fun _ _ h => h _
  | @typeExtension _ t hg hnone hadds =>
    cases hg with
    | @intro u head v tail _ hu hcontent hv =>
      obtain ⟨description, name, directives, content, span⟩ := t
      obtain rfl : description = none := hnone
      cases hu
      obtain ⟨hextend, hkey, htr⟩ := ht
      rw [read, ends_bind, ends_peek, hextend]
      simp only [readExtension, ends_located, ends_bind, ends_expect, ends_token]
      refine ⟨hextend, _, some content.kind, hkey, ?_, ?_⟩
      · cases content <;> rfl
      have hbody := TypeDefinition.complete_readBody rfl hcontent hv htr (hd.mono fun _ h => h)
      exact (ends_unlessNothing typeExtension TypeDefinition.addsNothing_bare hadds
        (fun _ h => congrArg typeExtension h) hbody).mono fun _ _ h => h _

def Begins (t : Token) : Prop :=
  t = .punctuator .openBrace ∨ (∃ v, t = .string v) ∨ (∃ v, t = .blockString v) ∨
    ∃ s, t = .name s ∧ s ≠ "implements"

theorem begins_of_description {u rest : Phrase} {name : String} {s : Option StringValue}
    (h : StringValue.DerivesDescription u s) (hname : name ≠ "implements") :
    ∃ w more, u ++ .name name :: rest = w :: more ∧ Begins w.token := by
  cases h with
  | absent => exact ⟨_, _, rfl, .inr (.inr (.inr ⟨_, rfl, hname⟩))⟩
  | present hs =>
    cases hs with
    | quoted => exact ⟨_, _, rfl, .inr (.inl ⟨_, rfl⟩)⟩
    | block => exact ⟨_, _, rfl, .inr (.inr (.inl ⟨_, rfl⟩))⟩

theorem starts : Starts Derives Begins := by
  intro ws d hg
  cases hg with
  | @operation _ o hg =>
    obtain ⟨kind, name, vars, directives, ⟨items, p⟩, span⟩ := o
    cases hg with
    | shorthand _ _ hw hitems =>
      cases hw with
      | absent => exact absurd rfl hitems
      | present => exact ⟨_, _, rfl, .inl rfl⟩
    | long => exact ⟨_, _, rfl, .inr (.inr (.inr ⟨_, rfl, by cases kind <;> simp [OperationKind.keyword]⟩))⟩
  | fragment hg => cases hg; exact ⟨_, _, rfl, .inr (.inr (.inr ⟨_, rfl, by simp⟩))⟩
  | schema hg => cases hg with | intro _ hu => exact begins_of_description hu (by simp)
  | @type _ t hg =>
    cases hg with
    | intro _ hu =>
      exact begins_of_description hu (by cases t.kind <;> simp [TypeKind.keyword])
  | directive hg => cases hg with | intro _ hu => exact begins_of_description hu (by simp)
  | schemaExtension => exact ⟨_, _, rfl, .inr (.inr (.inr ⟨_, rfl, by simp⟩))⟩
  | typeExtension => exact ⟨_, _, rfl, .inr (.inr (.inr ⟨_, rfl, by simp⟩))⟩

/-- Only a brace can go on with a definition and begin the next one. -/
theorem not_mem_bars {t : Token} (h : Begins t) {d : Definition}
    (hd : d.isOpen = true → t ≠ .punctuator .openBrace) : t ∉ d.bars := by
  cases hopen : d.isOpen with
  | true =>
    rcases h with rfl | ⟨v, rfl⟩ | ⟨v, rfl⟩ | ⟨s, rfl, hs⟩
    · exact absurd rfl (hd hopen)
    all_goals simp_all [bars]
  | false => rcases h with rfl | ⟨v, rfl⟩ | ⟨v, rfl⟩ | ⟨s, rfl, hs⟩ <;> simp_all [bars]

end Definition

namespace Cursor

theorem not_isComplete_of_next {c : Cursor} {t : Token} (h : c.next? = some t) :
    c.isComplete = false := by
  unfold next? at h
  unfold isComplete
  split <;> simp_all

theorem next?_of_isComplete {c : Cursor} (h : c.isComplete = true) : c.next? = none := by
  cases hn : c.next? with
  | none => rfl
  | some t => rw [not_isComplete_of_next hn] at h; exact absurd h (by simp)

theorem clear_of_isComplete {c : Cursor} (h : c.isComplete = true) (bars : List Token) :
    c.Clear bars := by
  intro t _
  rw [next?_of_isComplete h]
  simp

end Cursor

namespace Document

/-- The definitions that are read make up the whole text, and no brace is left to the next. -/
theorem sound_definitions (c : Cursor) :
    Always (whileMore more Definition.read) c fun ds d =>
      d.isComplete = true ∧ ∃ ws, Definition.Apart ws ds ∧ c.Takes ws d := by
  induction hn : c.tokens.length using Nat.strongRecOn generalizing c with
  | ind n ih =>
    apply always_whileMore
    · intro b d hr hb
      simp only [more, Except.ok.injEq, Prod.mk.injEq] at hr
      obtain ⟨rfl, rfl⟩ := hr
      exact ⟨by simpa using hb, [], .nil, rfl⟩
    · intro b d hr _
      simp only [more, Except.ok.injEq, Prod.mk.injEq] at hr
      obtain ⟨_, rfl⟩ := hr
      refine (Definition.sound_read c).mono ?_
      rintro a f ⟨hopen, u, hu, htu⟩
      have hlt := htu.length_lt (Definition.starts.ne_nil hu)
      refine ⟨hlt, (ih f.tokens.length (by omega) f rfl).mono ?_⟩
      rintro ds d ⟨hdone, v, hv, htv⟩
      refine ⟨hdone, u ++ v, .cons hu hv fun ho hbrace => ?_, htu.append htv⟩
      have hne : v ≠ [] := by
        rintro rfl
        simp [Phrase.IsBraced] at hbrace
      rw [Phrase.IsBraced, htv.head? hne] at hbrace
      exact hopen ho hbrace

theorem complete_definitions {ws : Phrase} {ds : List Definition} (hg : Definition.Apart ws ds)
    {c d : Cursor} (ht : c.Takes ws d) (hd : d.isComplete = true) :
    Ends (whileMore more Definition.read) c fun bs e => e = d ∧ bare bs = bare ds := by
  induction hg generalizing c with
  | nil =>
    obtain rfl := ht
    refine ⟨[], d, ?_, rfl, rfl⟩
    rw [whileMore_apply, bind_apply, more, hd]
    rfl
  | @cons u v a as hu hv hopen ih =>
    obtain ⟨e, htu, htv⟩ := Cursor.takes_append.mp ht
    have hclear : e.Clear a.bars := by
      cases hv with
      | nil =>
        obtain rfl := htv
        exact Cursor.clear_of_isComplete hd _
      | cons hb _ _ =>
        obtain ⟨e', htb, _⟩ := Cursor.takes_append.mp htv
        obtain ⟨t, hn, hbegins⟩ := Definition.starts.next? hb htb
        refine Cursor.clear_of_next hn (Definition.not_mem_bars hbegins fun ho hbrace => ?_)
        refine hopen ho ?_
        rw [Phrase.IsBraced, htv.head? (by simp [Definition.starts.ne_nil hb]), hn, hbrace]
    obtain ⟨b, g, hb, rfl, hshape⟩ := Definition.complete_read u a c e hu htu hclear
    obtain ⟨bs, g', hbs, rfl, hshapes⟩ := ih htv
    refine ⟨b :: bs, g', ?_, rfl, by rw [bare_cons, bare_cons, hshape, hshapes]⟩
    have hlt := htu.length_lt (Definition.starts.ne_nil hu)
    obtain ⟨t, hn, _⟩ := Definition.starts.next? hu htu
    rw [whileMore_apply, bind_apply, more, Cursor.not_isComplete_of_next hn]
    simp only [Bool.not_false, if_true, bind_apply, hb, if_pos hlt]
    rw [← bind_pure_comp, bind_apply, hbs]
    rfl

theorem sound_read (c : Cursor) :
    Always read c fun d e => e.isComplete = true ∧ ∃ ws, DerivesApart ws d ∧ c.Takes ws e := by
  simp only [read, always_located, always_bind, always_ite, always_pure]
  refine (sound_definitions c).mono ?_
  rintro ds d ⟨hdone, ws, hg, ht⟩
  refine ⟨fun _ => always_fail, fun hne sizeHint e hr => ?_⟩
  obtain ⟨rfl, rfl⟩ := hr
  exact ⟨hdone, ws, .intro _ hg (by simpa using hne), ht⟩

theorem complete_read {ws : Phrase} {node : Document} (hg : DerivesApart ws node) {c d : Cursor}
    (ht : c.Takes ws d) (hd : d.isComplete = true) :
    Ends read c fun b e => e = d ∧ bare b = bare node := by
  cases hg with
  | intro hg hne =>
    simp only [read, ends_located, ends_bind, ends_ite, ends_pure]
    refine (complete_definitions hg ht hd).mono ?_
    rintro ds _ ⟨rfl, h⟩
    refine ⟨fun hnil => ?_, fun _ => ⟨_, _, rfl, rfl, ?_⟩⟩
    · rw [List.isEmpty_iff.mp hnil] at h
      exact absurd (List.map_eq_nil_iff.mp h.symm) hne
    · change Document.mk (bare ds) 0 Span.zero = Document.mk (bare node.definitions) 0 Span.zero
      rw [h]

end Document

end GraphQLText
