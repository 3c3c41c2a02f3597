import GraphQLText.Proofs.Prefix.TypeSystem

/-!
# Definitions and documents recover

All that has been read of a source before reading fails goes on to a document.
-/

namespace GraphQLText

set_option autoImplicit false

open Reader

namespace SchemaPart

/-- What stands behind the keyword of a part makes a definition of it, described or not. -/
def Body (part : SchemaPart) (ws : Phrase) (_ : Unit) : Prop :=
  ∀ u description, StringValue.DerivesDescription u description →
    ∃ d, Definition.Derives (u ++ .name part.keyword :: ws) d

end SchemaPart

namespace TypeDefinition

theorem Body.exists_derives {kind : TypeKind} {ws : Phrase} {p : List Directive × TypeContent}
    (h : Body kind ws p) {u : Phrase} {description : Option StringValue}
    (hu : StringValue.DerivesDescription u description) :
    ∃ d : TypeDefinition, d.description = description ∧ d.addsNothing = false ∧
      Derives (u ++ .name kind.keyword :: ws) d := by
  obtain @⟨_, _, name, ⟨directives, content⟩, hname, ⟨hkind, head, v, tail, rfl, hcontent, hv⟩,
    hadds⟩ := h
  obtain rfl : content.kind = kind := hkind
  cases hname
  have hd := Derives.intro ⟨description, name, directives, content, Span.zero⟩ hu hcontent hv
  refine ⟨_, rfl, ?_, hd⟩
  rcases hadds with hne | hfull
  · simp [addsNothing, show directives ≠ [] from hne]
  · simp [addsNothing, show content.isEmpty = false from hfull]

end TypeDefinition

namespace SchemaDefinition

theorem Body.exists_derives {ws : Phrase} {types : List RootOperationType} (h : Body ws types)
    {u : Phrase} {description : Option StringValue}
    (hu : StringValue.DerivesDescription u description) :
    ∃ d : SchemaDefinition, d.description = description ∧ d.operationTypes ≠ [] ∧
      Derives (u ++ .name "schema" :: ws) d := by
  obtain @⟨_, _, directives, _, hv, htypes, hne⟩ := h
  exact ⟨⟨description, directives, types, Span.zero⟩, rfl, hne, .intro _ hu hv htypes⟩

end SchemaDefinition

namespace DirectiveDefinition

theorem Body.exists_derives {ws : Phrase} {locations : List DirectiveLocation}
    (h : Body ws locations) {u : Phrase} {description : Option StringValue}
    (hu : StringValue.DerivesDescription u description) :
    ∃ d, Derives (u ++ .name "directive" :: ws) d := by
  obtain ⟨⟨⟩, @⟨_, _, name, _, ⟨⟩, @⟨_, _, arguments, _, harguments,
    @⟨_, _, repeatable, _, hrepeatable, ⟨⟨⟩, hlocations⟩⟩⟩⟩⟩ := h
  have hd := Derives.intro ⟨description, name, arguments, repeatable, locations, Span.zero⟩ hu
    harguments hlocations
  cases hrepeatable <;> exact ⟨_, hd⟩

end DirectiveDefinition

namespace SchemaPart

theorem recovers_keyword {expected : Construct} :
    Recovers (token expected fun
      | .name s => ofKeyword? s
      | _ => none) fun ws (part : SchemaPart) => ws = [.name part.keyword] := by
  apply Recovers.of_start
  · exact .of_fillers (a := schema) rfl (by decide)
  · exact fun c => fails_token rfl

theorem sound_keyword {expected : Construct} :
    Sound (token expected fun
      | .name s => ofKeyword? s
      | _ => none) fun ws (part : SchemaPart) => ws = [.name part.keyword] := by
  intro c
  rw [always_token]
  intro t part hn hpart
  split at hpart
  · obtain rfl := ofKeyword?_eq_some_iff.mp hpart
    exact ⟨_, rfl, hn, rfl⟩
  · exact absurd hpart (by simp)

theorem recovers_readBody (part : SchemaPart) (description : Option StringValue) :
    Recovers (readBody description part) part.Body := by
  cases part with
  | schema =>
    apply (SchemaDefinition.recovers_readBody description).bind_pure.mono
    intro ws types hws
    refine ⟨ws, (), fun u description hu => ?_, rfl⟩
    obtain ⟨d, -, hne, hd⟩ := hws.exists_derives hu
    exact ⟨.schema d, .schema hd hne⟩
  | directive =>
    apply (DirectiveDefinition.recovers_readBody description).bind_pure.mono
    intro ws locations hws
    refine ⟨ws, (), fun u description hu => ?_, rfl⟩
    obtain ⟨d, hd⟩ := hws.exists_derives hu
    exact ⟨.directive d, .directive hd⟩
  | type kind =>
    apply (TypeDefinition.recovers_readBody kind description).bind_pure.mono
    intro ws p hws
    refine ⟨ws, (), fun u description hu => ?_, rfl⟩
    obtain ⟨d, -, -, hd⟩ := hws.exists_derives hu
    exact ⟨.type d, .type hd⟩

end SchemaPart

namespace Definition

theorem recovers_readTypeSystem : Recovers readTypeSystem Derives := by
  rw [readTypeSystem_eq]
  apply Recovers.mono (.located (StringValue.recovers_readDescription.bind
      StringValue.sound_readDescription fun description =>
    SchemaPart.recovers_keyword.bind SchemaPart.sound_keyword fun part =>
    part.recovers_readBody description))
  intro ws _ hws
  obtain @⟨u, _, description, _, hu, @⟨_, v, part, _, rfl, hbody⟩⟩ := hws
  obtain ⟨d, hd⟩ := hbody u description hu
  exact ⟨_, d, hd, by simp⟩

def extended : Option TypeKind → String
  | none => "schema"
  | some kind => kind.keyword

def ExtensionBody (kind : Option TypeKind) (ws : Phrase) (_ : Unit) : Prop :=
  ∃ d, Derives (.name "extend" :: .name (extended kind) :: ws) d

theorem recovers_extended {expected : Construct} :
    Recovers (token expected fun
      | .name "schema" => some none
      | .name s => (TypeKind.ofKeyword? s).map some
      | _ => none) fun ws kind => ws = [.name (extended kind)] := by
  apply Recovers.of_start
  · exact .of_fillers (a := none) rfl (by decide)
  · exact fun c => fails_token rfl

theorem sound_extended {expected : Construct} :
    Sound (token expected fun
      | .name "schema" => some none
      | .name s => (TypeKind.ofKeyword? s).map some
      | _ => none) fun ws kind => ws = [.name (extended kind)] := by
  intro c
  rw [always_token]
  intro t kind hn hkind
  split at hkind
  · obtain rfl := Option.some.inj hkind
    exact ⟨_, rfl, hn, rfl⟩
  · obtain ⟨kind, hname, rfl⟩ := Option.map_eq_some_iff.mp hkind
    obtain rfl := TypeKind.ofKeyword?_eq_some_iff.mp hname
    exact ⟨_, rfl, hn, rfl⟩
  · exact absurd hkind (by simp)

def readExtensionBody : Option TypeKind → Reader (Span → Definition)
  | none => do
    let d ← SchemaDefinition.readParts none
    if (d Span.zero).addsNothing then
      fail .typeSystemExtension
    else
      return fun span => .schemaExtension (d span)
  | some kind => do
    let d ← TypeDefinition.readBody kind none
    if (d Span.zero).addsNothing then
      fail .typeSystemExtension
    else
      return fun span => .typeExtension (d span)

theorem recovers_readExtensionBody (kind : Option TypeKind) :
    Recovers (readExtensionBody kind) (ExtensionBody kind) := by
  cases kind with
  | none =>
    have hlacks : ∀ d : SchemaDefinition, d.addsNothing = true → d.operationTypes = [] := by
      simp +contextual [SchemaDefinition.addsNothing]
    apply (SchemaDefinition.recovers_unless none hlacks
      fun d span => Definition.schemaExtension (d span)).mono
    intro ws types hws
    obtain ⟨d, hnone, hne, hd⟩ := hws.exists_derives .absent
    refine ⟨ws, (), ⟨.schemaExtension d, .schemaExtension hd hnone ?_⟩, rfl⟩
    simp [SchemaDefinition.addsNothing, hne]
  | some kind =>
    apply (TypeDefinition.recovers_extending kind
      fun d span => Definition.typeExtension (d span)).mono
    intro ws p hws
    obtain ⟨d, hnone, hadds, hd⟩ := hws.exists_derives .absent
    exact ⟨ws, (), ⟨.typeExtension d, .typeExtension hd hnone hadds⟩, rfl⟩

theorem readExtension_eq :
    readExtension = located (expect (.name "extend") .typeSystemExtension >>= fun _ =>
      token .typeSystemExtension (fun
        | .name "schema" => some none
        | .name s => (TypeKind.ofKeyword? s).map some
        | _ => none) >>= readExtensionBody) :=
  rfl

theorem recovers_readExtension : Recovers readExtension Derives := by
  rw [readExtension_eq]
  apply Recovers.mono (.located ((Recovers.expect (by decide)).bind sound_expect fun _ =>
    recovers_extended.bind sound_extended recovers_readExtensionBody))
  intro ws _ hws
  obtain ⟨⟨⟩, @⟨_, v, kind, _, rfl, d, hd⟩⟩ := hws
  exact ⟨_, d, hd, by simp⟩

/-- The shortest definition that can be written anywhere. -/
theorem derives_scalar : Derives [.name "scalar", .name "A"]
    (.type ⟨none, ⟨"A", Span.zero⟩, [], .scalar, Span.zero⟩) :=
  .type (.intro ⟨none, ⟨"A", Span.zero⟩, [], .scalar, Span.zero⟩ .absent .scalar .nil)

theorem recovers_read : Recovers read Derives := by
  have hviable : Viable Derives [] := .of_fillers derives_scalar (by decide)
  have hoperation : Recovers (operation <$> OperationDefinition.read) Derives :=
    OperationDefinition.recovers_read.map.mono fun ws d hd => ⟨ws, _, .operation hd, rfl⟩
  have hfragment : Recovers (fragment <$> FragmentDefinition.read) Derives :=
    FragmentDefinition.recovers_read.map.mono fun ws d hd => ⟨ws, _, .fragment hd, rfl⟩
  refine ⟨hviable, fun c => ?_⟩
  rw [read]
  apply fails_peek_bind
  split
  · exact hoperation.fails c
  · exact recovers_readTypeSystem.fails c
  · exact recovers_readTypeSystem.fails c
  · exact hfragment.fails c
  · exact recovers_readExtension.fails c
  · rw [fails_ite, fails_ite, fails_fail]
    exact ⟨fun _ => hoperation.fails c, fun _ => ⟨fun _ => recovers_readTypeSystem.fails c,
      fun _ => .start hviable c⟩⟩
  · exact fails_fail.mpr (.start hviable c)

end Definition

/-- What begins with a phrase that is ahead begins with the token ahead. -/
theorem Cursor.Takes.head?_append {c d : Cursor} {us : Phrase} (h : c.Takes us d) (hne : us ≠ [])
    (ts : List Token) : (us.tokens ++ ts).head? = c.next? := by
  cases us with
  | nil => exact absurd rfl hne
  | cons w us => exact h.1.symm

namespace Document

/-- Definitions that are apart, and that begin with a brace only where there is one ahead. -/
def DefinitionsAt (c : Cursor) (ws : Phrase) (ds : List Definition) : Prop :=
  Definition.Apart ws ds ∧ ds ≠ [] ∧ (ws.IsBraced → c.next? = some (.punctuator .openBrace))

/-- A definition by itself, of which something has been read or which does not begin with a brace. -/
theorem definitionsAt_of_partway {c e : Cursor} (h : c.Partway Definition.Derives e) :
    c.Partway (DefinitionsAt c) e := by
  have hlast : ∀ {ws : Phrase} {d : Definition}, Definition.Derives ws d →
      Definition.Apart ws [d] := by
    intro ws d hd
    have happend := Definition.Apart.cons hd .nil fun _ => by simp [Phrase.IsBraced]
    rwa [List.append_nil] at happend
  obtain ⟨us, ht, ws, d, more, hg, hws, hmore⟩ := h
  by_cases hne : us = []
  · subst hne
    obtain rfl := ht
    have hscalar := hlast Definition.derives_scalar
    exact .start (.of_fillers ⟨hscalar, by simp, by simp [Phrase.IsBraced]⟩ (by decide)) _
  · refine ⟨us, ht, ws, [d], more, ⟨hlast hg, by simp, fun hbraced => ?_⟩, hws, hmore⟩
    rw [← ht.head?_append hne more, ← hws]
    exact hbraced

theorem fails_definitions (c : Cursor) :
    Fails (whileMore more Definition.read) c (c.Partway (DefinitionsAt c)) := by
  induction hn : c.tokens.length using Nat.strongRecOn generalizing c with
  | ind n ih =>
    intro f hf
    rcases whileMore_eq_error.mp hf with hm | ⟨d, hm, hi⟩
    · cases hm
    · obtain ⟨-, rfl⟩ := Prod.mk.inj (Except.ok.inj hm)
      rcases hi with hi | ⟨a, e, hi, hlt, hw⟩
      · exact definitionsAt_of_partway (Definition.recovers_read.fails c f hi)
      · obtain ⟨hopen, u, hu, htu⟩ := Definition.sound_read c a e hi
        apply (ih e.tokens.length (by omega) e rfl f hw).within htu [] (by simp)
        rintro ws ds ⟨hapart, -, hbrace⟩
        have hcons := Definition.Apart.cons hu hapart fun ho hbraced => hopen ho (hbrace hbraced)
        refine ⟨u ++ ws, a :: ds, ⟨hcons, by simp, fun hbraced => ?_⟩, by simp⟩
        rw [← htu.head?_append (Definition.starts.ne_nil hu) ws.tokens, ← Phrase.tokens_append]
        exact hbraced

theorem recovers_read : Recovers read DerivesApart := by
  have hdocument : ∀ c ws ds, DefinitionsAt c ws ds →
      ∃ vs d, DerivesApart vs d ∧ vs.tokens = ws.tokens := by
    rintro c ws ds ⟨hapart, hne, -⟩
    exact ⟨ws, ⟨ds, 0, Span.zero⟩, .intro _ hapart hne, rfl⟩
  have hstart : ∀ c : Cursor, c.Partway DerivesApart c := by
    intro c
    have hscalar := Cursor.Partway.start (.of_fillers Definition.derives_scalar (by decide)) c
    exact (definitionsAt_of_partway hscalar).mono (hdocument c)
  constructor
  · obtain ⟨us, ht, hviable⟩ := hstart default
    have hlen := ht.length
    obtain rfl : us = [] := List.length_eq_zero_iff.mp (by omega)
    exact hviable
  · intro c
    rw [read, fails_located, fails_bind]
    refine ⟨fun f hf => (fails_definitions c f hf).mono (hdocument c), ?_⟩
    refine (sound_definitions c).mono ?_
    rintro ds d ⟨-, ws, hapart, ht⟩
    rw [fails_ite, fails_fail]
    refine ⟨fun hnil => ?_, fun _ f hf => by cases hf⟩
    obtain rfl := List.isEmpty_iff.mp hnil
    cases hapart
    obtain rfl := ht
    exact hstart _

end Document

end GraphQLText
