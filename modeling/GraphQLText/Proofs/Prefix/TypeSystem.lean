import GraphQLText.Proofs.Prefix.Executable
import GraphQLText.Proofs.Reading.Schema

/-!
# Recovery from errors in the type system

The readers of the parts of a schema recover. What has been taken behind the keyword of a type or a
schema goes on to something that an extension could add.
-/

namespace GraphQLText

set_option autoImplicit false

open Reader

theorem StringValue.recovers_readDescription : Recovers readDescription? DerivesDescription := by
  apply Recovers.of_start
  · exact .of_fillers .absent (by simp)
  · intro c
    rw [readDescription?]
    apply fails_peek_bind
    split
    · exact fails_map.mpr (fails_located_token (fun _ _ => fails_pure _) rfl)
    · exact fails_map.mpr (fails_located_token (fun _ _ => fails_pure _) rfl)
    · exact fails_pure _

namespace InputValueDefinition

theorem recovers_read : Recovers read Derives := by
  apply Recovers.mono (.located (StringValue.recovers_readDescription.bind
      StringValue.sound_readDescription fun _ =>
    Recovers.nameToken.bind sound_nameToken fun _ =>
    (Recovers.expect (by decide)).bind sound_expect fun _ =>
    TypeRef.recovers_read.bind TypeRef.sound_read fun _ =>
    Value.recovers_readDefault.bind Value.sound_readDefault fun _ =>
    (Directive.recovers_readAll true).bind_pure))
  rintro _ ds ⟨hdescription, ⟨⟨⟩, ⟨⟨⟩, ⟨htype, ⟨hdefault, hds⟩⟩⟩⟩⟩
  exact ⟨_, ⟨_, _, _, _, ds, Span.zero⟩, .intro _ hdescription htype hdefault hds, rfl⟩

theorem recovers_readArguments : Recovers readArguments DerivesAll :=
  (recovers_read.enclosed sound_read _ _).weaken

end InputValueDefinition

theorem FieldDefinition.recovers_read : Recovers (read true) Derives := by
  apply Recovers.mono (.located (StringValue.recovers_readDescription.bind
      StringValue.sound_readDescription fun _ =>
    Recovers.nameToken.bind sound_nameToken fun _ =>
    InputValueDefinition.recovers_readArguments.bind InputValueDefinition.sound_readArguments
      fun _ =>
    (Recovers.expect (by decide)).bind sound_expect fun _ =>
    TypeRef.recovers_read.bind TypeRef.sound_read fun _ =>
    (Directive.recovers_readAll true).bind_pure))
  rintro _ ds ⟨hdescription, ⟨⟨⟩, ⟨harguments, ⟨⟨⟩, ⟨htype, hds⟩⟩⟩⟩⟩
  exact ⟨_, ⟨_, _, _, _, ds, Span.zero⟩, .intro _ hdescription harguments htype hds, rfl⟩

namespace EnumValueDefinition

theorem recovers_name {expected : Construct} :
    Recovers (token expected fun
      | .name name => if isEnumName name then some name else none
      | _ => none) fun ws name => isEnumName name = true ∧ ws = [.name name] := by
  apply Recovers.of_start
  · exact .of_fillers (a := "A") ⟨by decide, rfl⟩ (by decide)
  · exact fun c => fails_token rfl

theorem sound_name {expected : Construct} :
    Sound (token expected fun
      | .name name => if isEnumName name then some name else none
      | _ => none) fun ws name => isEnumName name = true ∧ ws = [.name name] := by
  intro c
  rw [always_token]
  intro t name hn hname
  split at hname
  · simp only [Option.ite_none_right_eq_some, Option.some.injEq] at hname
    obtain ⟨henum, rfl⟩ := hname
    exact ⟨_, ⟨henum, rfl⟩, hn, rfl⟩
  · exact absurd hname (by simp)

theorem recovers_read : Recovers (read true) Derives := by
  apply Recovers.mono (.located (StringValue.recovers_readDescription.bind
      StringValue.sound_readDescription fun _ =>
    recovers_name.bind sound_name fun _ => (Directive.recovers_readAll true).bind_pure))
  rintro _ ds ⟨hdescription, ⟨⟨henum, rfl⟩, hds⟩⟩
  exact ⟨_, ⟨_, _, ds, Span.zero⟩, .intro _ hdescription henum hds, rfl⟩

end EnumValueDefinition

theorem TypeName.recovers_readListBehind {t : Token} (ht : t.IsFiller) (separator : Punctuator) :
    Recovers (readListBehind t separator)
      fun ws names => Introduced t separator Derives ws names ∧ names ≠ [] := by
  have hnames := TypeName.recovers_read.separated TypeName.sound_read separator
  have hpresent : ∀ ws names, Separated separator Derives ws names →
      ∃ vs bs, (Introduced t separator Derives vs bs ∧ bs ≠ []) ∧
        vs.tokens = [t] ++ (ws.tokens ++ []) :=
    fun ws names hws => ⟨_, names, ⟨.present hws, hws.ne_nil⟩, by simp⟩
  constructor
  · obtain ⟨ws, names, more, hg, hws, hmore⟩ := hnames.viable
    obtain ⟨vs, bs, hvs, heq⟩ := hpresent ws names hg
    refine .of_fillers hvs ?_
    rw [heq, hws]
    simpa [ht] using hmore
  · intro c
    rw [readListBehind, fails_bind, always_eat]
    refine ⟨fails_eat, fun hn => ?_, fun _ => fails_pure _⟩
    intro f hf
    have hbefore : c.Takes [.need t] c.advance := ⟨hn, rfl⟩
    exact (hnames.fails c.advance f hf).within hbefore [] (by simp) hpresent

namespace TypeContent

/-- The grammar of directives and content of a kind. -/
structure WithDirectives (kind : TypeKind) (ws : Phrase) (p : List Directive × TypeContent) :
    Prop where
  kind_eq : p.2.kind = kind
  phrase : ∃ head v tail, ws = head ++ (v ++ tail) ∧ Derives head tail p.2 ∧
    Directive.DerivesAll true v p.1

/-- The same, where they are not both empty. -/
abbrev Full (kind : TypeKind) (ws : Phrase) (p : List Directive × TypeContent) : Prop :=
  WithDirectives kind ws p ∧ (p.1 ≠ [] ∨ p.2.isEmpty = false)

/-- Directives and a list behind them, where there may have been something before. -/
theorem recovers_directives {β : Type} {kind : TypeKind} {r : Reader (List β)}
    {G : Phrase → List β → Prop} (head : Phrase) (h : Recovers r fun ws bs => G ws bs ∧ bs ≠ [])
    (hnil : G [] []) {make : List β → TypeContent} (hkind : ∀ bs, (make bs).kind = kind)
    (hmake : ∀ ws bs, G ws bs → Derives head ws (make bs))
    (hadds : ∀ bs, bs ≠ [] → (make bs).isEmpty = false) :
    Recovers (Directive.readAll true >>= fun directives => r >>= fun bs =>
      pure (directives, make bs)) fun ws p => Full kind (head ++ ws) p := by
  apply (Directive.recovers_readSome true).bindTo (Directive.sound_readAll true)
  · rintro v ds ⟨hv, hne⟩
    refine ⟨(ds, make []), ⟨hkind [], head, v, [], ?_, hmake [] [] hnil, hv⟩, .inl hne⟩
    simp
  · intro v ds hv
    apply h.bind_pure.mono
    rintro ws bs ⟨hws, hne⟩
    have hfull : Full kind (head ++ (v ++ ws)) (ds, make bs) :=
      ⟨⟨hkind bs, head, v, ws, rfl, hmake ws bs hws, hv⟩, .inr (hadds bs hne)⟩
    exact ⟨ws, _, hfull, rfl⟩

theorem recovers_interfaces {kind : TypeKind}
    {make : List TypeName → List FieldDefinition → TypeContent}
    (hkind : ∀ interfaces fields, (make interfaces fields).kind = kind)
    (hmake : ∀ us ws interfaces fields, TypeName.DerivesInterfaces us interfaces →
      Enclosed .openBrace .closeBrace FieldDefinition.Derives ws fields →
      Derives us ws (make interfaces fields))
    (hadds : ∀ interfaces fields, interfaces ≠ [] ∨ fields ≠ [] →
      (make interfaces fields).isEmpty = false) :
    Recovers (TypeName.readInterfaces >>= fun interfaces => Directive.readAll true >>= fun ds =>
      FieldDefinition.readAll true >>= fun fields => pure (ds, make interfaces fields))
      (Full kind) := by
  apply (TypeName.recovers_readListBehind (by decide) _).bindTo
    (TypeName.sound_readListBehind _ _)
  · rintro us interfaces ⟨hus, hne⟩
    have hfull : Full kind us ([], make interfaces []) :=
      ⟨⟨hkind _ _, us, [], [], by simp, hmake _ _ _ _ hus .absent, .nil⟩,
        .inr (hadds _ _ (.inl hne))⟩
    exact ⟨_, hfull⟩
  · intro us interfaces hus
    apply recovers_directives us
      (FieldDefinition.recovers_read.enclosed FieldDefinition.sound_read _ _) .absent
    · exact hkind interfaces
    · exact fun ws fields hws => hmake _ _ _ _ hus hws
    · exact fun fields hne => hadds _ _ (.inr hne)

theorem recovers_readWithDirectives (kind : TypeKind) :
    Recovers (readWithDirectives kind) (Full kind) := by
  cases kind with
  | scalar =>
    apply (Directive.recovers_readSome true).bind_pure.mono
    rintro v ds ⟨hv, hne⟩
    have hfull : Full .scalar v (ds, .scalar) :=
      ⟨⟨rfl, [], v, [], by simp, .scalar, hv⟩, .inl hne⟩
    exact ⟨v, _, hfull, rfl⟩
  | object =>
    apply recovers_interfaces
    · exact fun _ _ => rfl
    · exact fun _ _ _ _ hus hws => .object hus hws
    · simp +contextual [isEmpty, or_imp]
  | interface =>
    apply recovers_interfaces
    · exact fun _ _ => rfl
    · exact fun _ _ _ _ hus hws => .interface hus hws
    · simp +contextual [isEmpty, or_imp]
  | union =>
    apply recovers_directives []
      (TypeName.recovers_readListBehind (by decide) _) .absent
    · exact fun _ => rfl
    · exact fun _ _ hws => .union hws
    · simp [isEmpty]
  | enum =>
    apply recovers_directives []
      (EnumValueDefinition.recovers_read.enclosed EnumValueDefinition.sound_read _ _) .absent
    · exact fun _ => rfl
    · exact fun _ _ hws => .enum hws
    · simp [isEmpty]
  | inputObject =>
    apply recovers_directives []
      (InputValueDefinition.recovers_read.enclosed InputValueDefinition.sound_read _ _) .absent
    · exact fun _ => rfl
    · exact fun _ _ hws => .inputObject hws
    · simp [isEmpty]

theorem sound_phrase (kind : TypeKind) : Sound (readWithDirectives kind) (WithDirectives kind) := by
  intro c
  refine (sound_readWithDirectives kind c).mono fun p d hp => ?_
  obtain ⟨hkind, _, head, v, tail, hg, hv, ht⟩ := hp
  exact ⟨_, ⟨hkind, head, v, tail, rfl, hg, hv⟩, ht⟩

theorem Derives.eq_nil {head tail : Phrase} {content : TypeContent}
    (h : Derives head tail content) (hempty : content.isEmpty = true) : head = [] ∧ tail = [] := by
  cases h with
  | scalar => exact ⟨rfl, rfl⟩
  | object hu hw | interface hu hw =>
    simp only [isEmpty, Bool.and_eq_true, List.isEmpty_iff] at hempty
    obtain ⟨rfl, rfl⟩ := hempty
    exact ⟨hu.eq_nil, hw.eq_nil⟩
  | union hw =>
    obtain rfl := List.isEmpty_iff.mp hempty
    exact ⟨rfl, hw.eq_nil⟩
  | enum hw | inputObject hw =>
    obtain rfl := List.isEmpty_iff.mp hempty
    exact ⟨rfl, hw.eq_nil⟩

/-- Where there is nothing to add, nothing was taken. -/
theorem WithDirectives.eq_nil {kind : TypeKind} {ws : Phrase} {content : TypeContent}
    (h : WithDirectives kind ws ([], content)) (hempty : content.isEmpty = true) : ws = [] := by
  obtain ⟨head, v, tail, rfl, hg, hv⟩ := h.phrase
  obtain ⟨rfl, rfl⟩ := hg.eq_nil hempty
  cases hv
  rfl

end TypeContent

namespace TypeDefinition

abbrev Body (kind : TypeKind) : Phrase → List Directive × TypeContent → Prop :=
  Then TypeName.Derives fun _ => TypeContent.Full kind

theorem readBody_eq (kind : TypeKind) (description : Option StringValue) :
    readBody kind description = TypeName.read >>= fun name =>
      TypeContent.readWithDirectives kind >>= fun p =>
        pure fun span => ⟨description, name, p.1, p.2, span⟩ :=
  rfl

theorem recovers_readBody (kind : TypeKind) (description : Option StringValue) :
    Recovers (readBody kind description) (Body kind) := by
  rw [readBody_eq]
  exact TypeName.recovers_read.bind TypeName.sound_read fun _ =>
    (TypeContent.recovers_readWithDirectives kind).bind_pure

/-- An extension that adds nothing fails behind the name of the type. -/
theorem recovers_extending {β : Type} (kind : TypeKind) {expected : Construct}
    (f : (Span → TypeDefinition) → β) :
    Recovers (readBody kind none >>= fun d =>
      if (d Span.zero).addsNothing then fail expected else pure (f d)) (Body kind) := by
  have hcontent := TypeContent.recovers_readWithDirectives kind
  rw [readBody_eq]
  simp only [bind_assoc, pure_bind]
  refine TypeName.recovers_read.bind TypeName.sound_read fun name => ?_
  apply hcontent.bindTo (TypeContent.sound_phrase kind)
  · exact fun us p hp => ⟨p, hp⟩
  · rintro us ⟨directives, content⟩ hp
    by_cases hadds : (TypeDefinition.mk none name directives content Span.zero).addsNothing = true
    · rw [if_pos hadds]
      simp only [addsNothing, Bool.and_eq_true, List.isEmpty_iff] at hadds
      obtain ⟨rfl, hempty⟩ := hadds
      obtain rfl := hp.eq_nil hempty
      exact ⟨hcontent.viable, fun c => fails_fail.mpr (.start hcontent.viable c)⟩
    · rw [if_neg hadds]
      have hfull : TypeContent.Full kind (us ++ []) (directives, content) := by
        rw [List.append_nil]
        by_cases hds : directives = []
        · exact ⟨hp, .inr (by simpa [addsNothing, hds] using hadds)⟩
        · exact ⟨hp, .inl hds⟩
      have hnil : Viable (fun vs p => TypeContent.Full kind (us ++ vs) p) (Phrase.tokens []) :=
        .of_phrase hfull
      exact ⟨hnil, fun c => fails_pure _⟩

end TypeDefinition

theorem RootOperationType.recovers_read : Recovers read Derives := by
  have hkind : Recovers OperationKind.read
      fun ws (kind : OperationKind) => ws = [.name kind.keyword] := by
    apply Recovers.of_start
    · exact .of_fillers (a := OperationKind.query) rfl (by decide)
    · exact fun c => fails_token rfl
  apply Recovers.mono (.located (hkind.bind OperationKind.sound_read fun _ =>
    (Recovers.expect (by decide)).bind sound_expect fun _ => TypeName.recovers_read.bind_pure))
  intro ws type hws
  obtain @⟨_, _, kind, _, rfl, ⟨⟨⟩, ⟨⟩⟩⟩ := hws
  exact ⟨_, _, .intro ⟨kind, type, Span.zero⟩, rfl⟩

namespace SchemaDefinition

abbrev Body : Phrase → List RootOperationType → Prop :=
  Then (Directive.DerivesAll true) fun _ ws types =>
    Enclosed .openBrace .closeBrace RootOperationType.Derives ws types ∧ types ≠ []

/-- A schema that is turned down behind its directives for want of operation types. -/
theorem recovers_unless {β : Type} (description : Option StringValue) {expected : Construct}
    {lacks : SchemaDefinition → Bool} (hlacks : ∀ d, lacks d = true → d.operationTypes = [])
    (f : (Span → SchemaDefinition) → β) :
    Recovers (readParts description >>= fun d =>
      if lacks (d Span.zero) then fail expected else pure (f d)) Body := by
  have htypes := RootOperationType.recovers_read.enclosed RootOperationType.sound_read
    .openBrace .closeBrace
  simp only [readParts, bind_assoc, pure_bind]
  refine (Directive.recovers_readAll true).bind (Directive.sound_readAll true) fun directives => ?_
  refine ⟨htypes.viable, fun c => fails_bind.mpr ⟨htypes.fails c, ?_⟩⟩
  refine (RootOperationType.sound_readAll c).mono fun types d htypes' => ?_
  obtain ⟨ws, hws, ht⟩ := htypes'
  rw [fails_ite, fails_fail]
  refine ⟨fun hlack => ?_, fun _ => fails_pure _⟩
  obtain rfl : types = [] := hlacks _ hlack
  obtain rfl := hws.eq_nil
  exact ⟨[], ht, htypes.viable⟩

theorem recovers_readBody (description : Option StringValue) :
    Recovers (readBody description) Body := by
  have hlacks : ∀ d : SchemaDefinition, d.operationTypes.isEmpty = true → d.operationTypes = [] :=
    fun _ => List.isEmpty_iff.mp
  exact recovers_unless description hlacks id

end SchemaDefinition

theorem DirectiveLocation.recovers_read : Recovers read Derives := by
  apply Recovers.of_start
  · exact .of_fillers (.intro .query) (by decide)
  · exact fun c => fails_token rfl

namespace DirectiveDefinition

abbrev Body : Phrase → List DirectiveLocation → Prop :=
  Then (Just (.punctuator .atSign)) fun _ => Then Named fun _ =>
    Then InputValueDefinition.DerivesAll fun _ => Then (Optionally (.name "repeatable")) fun _ =>
      Then (Just (.name "on")) fun _ => Separated .pipe DirectiveLocation.Derives

theorem recovers_readBody (description : Option StringValue) :
    Recovers (readBody description) Body :=
  (Recovers.expect (by decide)).bind sound_expect fun _ =>
    Recovers.nameToken.bind sound_nameToken fun _ =>
    InputValueDefinition.recovers_readArguments.bind InputValueDefinition.sound_readArguments
      fun _ =>
    Recovers.optionally.bind sound_eat fun _ =>
    (Recovers.expect (by decide)).bind sound_expect fun _ =>
    (DirectiveLocation.recovers_read.separated DirectiveLocation.sound_read .pipe).bind_pure

end DirectiveDefinition

end GraphQLText
