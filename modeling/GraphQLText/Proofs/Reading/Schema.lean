import GraphQLText.Proofs.Reading.TypeSystem

/-!
# Reading schemas takes their phrases

The readers of types, schemas and directives are sound and complete for their grammars. What stands
behind the keyword of a definition is read alike in definitions and extensions.
-/

namespace GraphQLText

set_option autoImplicit false

open Reader

namespace TypeName

theorem starts : Starts Derives fun t => ∃ s, t = .name s := by
  intro ws n hg
  cases hg
  exact ⟨_, _, rfl, _, rfl⟩

theorem sound_readListBehind (t : Token) (separator : Punctuator) :
    Sound (readListBehind t separator) (Introduced t separator Derives) := by
  intro c
  rw [readListBehind, always_bind, always_eat]
  refine ⟨fun hn => ?_, fun _ => ?_⟩
  · simp only [if_true]
    refine (sound_read.separated separator c.advance).mono ?_
    rintro names d ⟨u, hu, ht⟩
    exact ⟨_, .present hu, hn, ht⟩
  · exact always_pure.mpr ⟨[], .absent, rfl⟩

theorem complete_readListBehind (t : Token) (separator : Punctuator) :
    Complete (readListBehind t separator) (Introduced t separator Derives)
      fun _ => [t, .punctuator separator] := by
  intro ws names c d hg ht hd
  rw [readListBehind, ends_bind, ends_eat]
  cases hg with
  | absent =>
    obtain rfl := ht
    refine ⟨fun hn => absurd hn (hd t (by simp)), fun _ => ?_⟩
    exact ends_pure.mpr ⟨rfl, rfl⟩
  | @present u _ hu =>
    refine ⟨fun _ => ?_, fun hno => absurd ht.1 hno⟩
    simp only [if_true]
    exact complete_read.separated starts (by simp) u names _ d hu ht.2 (hd.mono (by simp))

end TypeName

namespace TypeContent

def bars (content : TypeContent) : List Token :=
  [.name "implements", .punctuator .ampersand, .punctuator .equals, .punctuator .pipe,
    .punctuator .atSign, .punctuator .openParen] ++
    if content.isOpen then [.punctuator .openBrace] else []

/-- What is read behind the name of a type is as the grammar has it, and no brace follows where
there could still be a body. -/
theorem sound_readWithDirectives (kind : TypeKind) (c : Cursor) :
    Always (readWithDirectives kind) c fun p d => p.2.kind = kind ∧
      (p.2.isOpen = true → d.next? ≠ some (.punctuator .openBrace)) ∧
      ∃ head v tail, Derives head tail p.2 ∧ Directive.DerivesAll true v p.1 ∧
        c.Takes (head ++ (v ++ tail)) d := by
  have hfields : ∀ e, Always (FieldDefinition.readAll true) e fun fields d =>
      (fields.isEmpty = true → d.next? ≠ some (.punctuator .openBrace)) ∧
        ∃ w, Enclosed .openBrace .closeBrace FieldDefinition.Derives w fields ∧ e.Takes w d := by
    intro e
    refine ((always_enclosed_clear e).and (FieldDefinition.sound_readAll e)).mono ?_
    rintro fields d ⟨hclear, hw⟩
    exact ⟨fun hnil => hclear (List.isEmpty_iff.mp hnil), hw⟩
  cases kind with
  | scalar =>
    simp only [readWithDirectives, always_bind, always_pure]
    refine (Directive.sound_readAll true c).mono ?_
    rintro directives d ⟨v, hv, htv⟩
    exact ⟨rfl, by simp [isOpen], [], v, [], .scalar, hv, by simpa using htv⟩
  | object | interface =>
    simp only [readWithDirectives, always_bind, always_pure]
    refine (TypeName.sound_readListBehind _ _ c).mono ?_
    rintro interfaces d₁ ⟨u, hu, htu⟩
    refine (Directive.sound_readAll true d₁).mono ?_
    rintro directives d₂ ⟨v, hv, htv⟩
    refine (hfields d₂).mono ?_
    rintro fields d ⟨hopen, w, hw, htw⟩
    exact ⟨rfl, hopen, u, v, w, by constructor <;> assumption, hv, htu.append (htv.append htw)⟩
  | union =>
    simp only [readWithDirectives, always_bind, always_pure]
    refine (Directive.sound_readAll true c).mono ?_
    rintro directives d₁ ⟨v, hv, htv⟩
    refine (TypeName.sound_readListBehind _ _ d₁).mono ?_
    rintro members d ⟨w, hw, htw⟩
    exact ⟨rfl, by simp [isOpen], [], v, w, .union hw, hv, htv.append htw⟩
  | enum =>
    simp only [readWithDirectives, always_bind, always_pure]
    refine (Directive.sound_readAll true c).mono ?_
    rintro directives d₁ ⟨v, hv, htv⟩
    refine ((always_enclosed_clear d₁).and (EnumValueDefinition.sound_readAll d₁)).mono ?_
    rintro values d ⟨hclear, w, hw, htw⟩
    exact ⟨rfl, fun hnil => hclear (List.isEmpty_iff.mp hnil), [], v, w, .enum hw, hv,
      htv.append htw⟩
  | inputObject =>
    simp only [readWithDirectives, always_bind, always_pure]
    refine (Directive.sound_readAll true c).mono ?_
    rintro directives d₁ ⟨v, hv, htv⟩
    refine ((always_enclosed_clear d₁).and (InputValueDefinition.sound_readFields d₁)).mono ?_
    rintro fields d ⟨hclear, w, hw, htw⟩
    exact ⟨rfl, fun hnil => hclear (List.isEmpty_iff.mp hnil), [], v, w, .inputObject hw, hv,
      htv.append htw⟩

/-- Interfaces, directives and fields are read back one after the other, whatever type they make. -/
theorem complete_readFielded (make : List TypeName → List FieldDefinition → TypeContent)
    {head v tail : Phrase} {interfaces : List TypeName} {fields : List FieldDefinition}
    {directives : List Directive} {c d : Cursor} (hu : TypeName.DerivesInterfaces head interfaces)
    (hw : Enclosed .openBrace .closeBrace FieldDefinition.Derives tail fields)
    (hv : Directive.DerivesAll true v directives) (ht : c.Takes (head ++ (v ++ tail)) d)
    (hd : d.Clear (bars (.object interfaces fields))) :
    Ends (do
      let interfaces ← TypeName.readInterfaces
      let directives ← Directive.readAll true
      let fields ← FieldDefinition.readAll true
      return (directives, make interfaces fields)) c fun p e =>
        e = d ∧ bare p.1 = bare directives ∧
          ∃ is fs, p.2 = make is fs ∧ bare is = bare interfaces ∧ bare fs = bare fields := by
  obtain ⟨d₁, hth, htr⟩ := Cursor.takes_append.mp ht
  obtain ⟨d₂, htv, htt⟩ := Cursor.takes_append.mp htr
  have hclear : d₂.Clear [.name "implements", .punctuator .ampersand, .punctuator .atSign,
      .punctuator .openParen] :=
    hw.clear htt (by simp) (hd.mono (by simp +contextual [bars]))
  simp only [ends_bind, ends_pure]
  refine (TypeName.complete_readListBehind _ _ head interfaces c d₁ hu hth
    (Directive.clear_of_all hv htv (by simp) (hclear.mono (by simp +contextual)))).mono ?_
  rintro is _ ⟨rfl, h₁⟩
  refine (Directive.complete_readAll true v directives _ d₂ hv htv
    (hclear.mono (by simp +contextual))).mono ?_
  rintro ds _ ⟨rfl, h₂⟩
  refine (FieldDefinition.complete_readAll true tail fields _ d hw htt
    (hd.mono (by simp +contextual [bars, isOpen]))).mono ?_
  rintro fs _ ⟨rfl, h₃⟩
  exact ⟨rfl, h₂, is, fs, rfl, h₁, h₃⟩

/-- Directives and what stands behind them are read back one after the other. -/
theorem complete_readTailed {ι : Type} [HasShape ι] (make : List ι → TypeContent)
    {r : Reader (List ι)} {items : List ι} {directives : List Directive} {c d₁ d : Cursor}
    (hmake : ∀ is, bare is = bare items → bare (make is) = bare (make items))
    (hv : Ends (Directive.readAll true) c fun ds e => e = d₁ ∧ bare ds = bare directives)
    (hr : Ends r d₁ fun is e => e = d ∧ bare is = bare items) :
    Ends (do
      let directives ← Directive.readAll true
      let items ← r
      return (directives, make items)) c fun p e =>
        e = d ∧ bare p.1 = bare directives ∧ bare p.2 = bare (make items) := by
  simp only [ends_bind, ends_pure]
  refine hv.mono ?_
  rintro ds _ ⟨rfl, h₁⟩
  refine hr.mono ?_
  rintro is _ ⟨rfl, h₂⟩
  exact ⟨rfl, h₁, hmake is h₂⟩

theorem complete_readWithDirectives {head v tail : Phrase} {content : TypeContent}
    {directives : List Directive} {c d : Cursor} (hg : Derives head tail content)
    (hv : Directive.DerivesAll true v directives) (ht : c.Takes (head ++ (v ++ tail)) d)
    (hd : d.Clear content.bars) :
    Ends (readWithDirectives content.kind) c fun p e =>
      e = d ∧ bare p.1 = bare directives ∧ bare p.2 = bare content := by
  obtain ⟨d₁, hth, htr⟩ := Cursor.takes_append.mp ht
  obtain ⟨d₂, htv, htt⟩ := Cursor.takes_append.mp htr
  have hdirectives : d₂.Clear [.punctuator .atSign, .punctuator .openParen] →
      Ends (Directive.readAll true) d₁ fun ds e => e = d₂ ∧ bare ds = bare directives :=
    fun h => Directive.complete_readAll true v directives d₁ d₂ hv htv h
  cases hg with
  | scalar =>
    obtain rfl := hth
    obtain rfl := htt
    simp only [kind, readWithDirectives, ends_bind, ends_pure]
    refine (hdirectives (hd.mono (by simp +contextual [bars]))).mono ?_
    rintro ds _ ⟨rfl, h⟩
    exact ⟨rfl, h, trivial⟩
  | @object _ _ interfaces fields hu hw =>
    refine (complete_readFielded .object hu hw hv ht hd).mono ?_
    rintro ⟨ds, _⟩ _ ⟨rfl, h₂, is, fs, rfl, h₁, h₃⟩
    refine ⟨rfl, h₂, ?_⟩
    change TypeContent.object (bare is) (bare fs) =
      TypeContent.object (bare interfaces) (bare fields)
    rw [h₁, h₃]
  | @interface _ _ interfaces fields hu hw =>
    refine (complete_readFielded .interface hu hw hv ht hd).mono ?_
    rintro ⟨ds, _⟩ _ ⟨rfl, h₂, is, fs, rfl, h₁, h₃⟩
    refine ⟨rfl, h₂, ?_⟩
    change TypeContent.interface (bare is) (bare fs) =
      TypeContent.interface (bare interfaces) (bare fields)
    rw [h₁, h₃]
  | @union _ members hw =>
    obtain rfl := hth
    have hds := hdirectives (hw.clear htt (by simp) (hd.mono (by simp +contextual [bars])))
    exact complete_readTailed .union (fun _ h => congrArg TypeContent.union h) hds
      (TypeName.complete_readListBehind _ _ tail members _ d hw htt
        (hd.mono (by simp +contextual [bars])))
  | @enum _ values hw =>
    obtain rfl := hth
    have hds := hdirectives (hw.clear htt (by simp) (hd.mono (by simp +contextual [bars])))
    exact complete_readTailed .enum (fun _ h => congrArg TypeContent.enum h) hds
      (EnumValueDefinition.complete_readAll true tail values _ d hw htt
        (hd.mono (by simp +contextual [bars, isOpen])))
  | @inputObject _ fields hw =>
    obtain rfl := hth
    have hds := hdirectives (hw.clear htt (by simp) (hd.mono (by simp +contextual [bars])))
    exact complete_readTailed .inputObject (fun _ h => congrArg TypeContent.inputObject h) hds
      (InputValueDefinition.complete_readFields tail fields _ d hw htt
        (hd.mono (by simp +contextual [bars, isOpen])))

end TypeContent

namespace TypeDefinition

/-- What is read behind a keyword goes with every description that there may be before it. -/
theorem sound_readBody (kind : TypeKind) (description : Option StringValue) (c : Cursor) :
    Always (readBody kind description) c fun f d =>
      (∀ span, (f span).description = description ∧
        ((f span).content.isOpen = true → d.next? ≠ some (.punctuator .openBrace))) ∧
      (∀ span span', (f span).addsNothing = (f span').addsNothing) ∧
      ∃ ws, c.Takes ws d ∧ ∀ u span, StringValue.DerivesDescription u description →
        Derives (u ++ .name kind.keyword :: ws) (f span) := by
  simp only [readBody, always_bind, always_pure]
  refine (TypeName.sound_read c).mono ?_
  rintro name d₁ ⟨n, hn, htn⟩
  refine (TypeContent.sound_readWithDirectives kind d₁).mono ?_
  rintro ⟨directives, content⟩ d ⟨rfl, hopen, head, v, tail, hg, hv, ht⟩
  cases hn
  refine ⟨fun span => ⟨trivial, hopen⟩, fun _ _ => rfl, .name name.name :: (head ++ (v ++ tail)),
    htn.append ht, fun u span hu => ?_⟩
  exact .intro ⟨description, name, directives, content, span⟩ hu hg hv

theorem complete_readBody {head v tail : Phrase} {node : TypeDefinition}
    {description : Option StringValue} {c d : Cursor}
    (hdescription : bare description = bare node.description)
    (hg : TypeContent.Derives head tail node.content)
    (hv : Directive.DerivesAll true v node.directives)
    (ht : c.Takes (.name node.name.name :: (head ++ (v ++ tail))) d)
    (hd : d.Clear node.content.bars) :
    Ends (readBody node.kind description) c fun f e =>
      e = d ∧ ∀ span, bare (f span) = bare node := by
  simp only [readBody, ends_bind, ends_pure]
  refine (TypeName.complete_read _ node.name c _ (.intro _) ⟨ht.1, rfl⟩
    (Cursor.clear_nil _)).mono ?_
  rintro name _ ⟨rfl, h₁⟩
  refine (TypeContent.complete_readWithDirectives hg hv ht.2 hd).mono ?_
  rintro ⟨directives, content⟩ _ ⟨rfl, h₂, h₃⟩
  refine ⟨rfl, fun span => ?_⟩
  change TypeDefinition.mk (bare description) (bare name) (bare directives) (bare content)
      Span.zero =
    TypeDefinition.mk (bare node.description) (bare node.name) (bare node.directives)
      (bare node.content) Span.zero
  rw [hdescription, h₁, h₂, h₃]

/-- What a definition adds is not a matter of where it stands. -/
theorem addsNothing_bare (d : TypeDefinition) : (bare d).addsNothing = d.addsNothing := by
  obtain ⟨description, name, directives, content, span⟩ := d
  cases content <;> simp [addsNothing, bare, reshape, TypeContent.restyle, TypeContent.isEmpty]

theorem complete_readOf (kind : TypeKind) :
    Complete (readOf kind) (fun ws d => Derives ws d ∧ d.kind = kind) fun d => d.content.bars := by
  rintro ws node c d ⟨hg, rfl⟩ ht hd
  cases hg with
  | @intro u head v tail _ hu hcontent hv =>
    obtain ⟨d₁, htu, hkey, htr⟩ := Cursor.takes_append.mp ht
    simp only [readOf, ends_located, ends_bind, ends_expect]
    refine (StringValue.complete_readDescription hu htu hkey).mono ?_
    rintro description _ ⟨rfl, h₁⟩
    refine ⟨hkey, (complete_readBody h₁ hcontent hv htr hd).mono ?_⟩
    rintro f _ ⟨rfl, h₂⟩
    exact ⟨rfl, h₂ _⟩

theorem complete_read : Complete read Derives fun d => d.content.bars := by
  intro ws node c d hg ht hd
  cases hg with
  | @intro u head v tail _ hu hcontent hv =>
    obtain ⟨d₁, htu, hkey, htr⟩ := Cursor.takes_append.mp ht
    simp only [read, ends_located, ends_bind, ends_token]
    refine (StringValue.complete_readDescription hu htu hkey).mono ?_
    rintro description _ ⟨rfl, h₁⟩
    refine ⟨_, node.kind, hkey, TypeKind.ofKeyword?_eq_some_iff.mpr rfl, ?_⟩
    refine (complete_readBody h₁ hcontent hv htr hd).mono ?_
    rintro f _ ⟨rfl, h₂⟩
    exact ⟨rfl, h₂ _⟩

end TypeDefinition

namespace RootOperationType

theorem starts : Starts Derives fun t => ∃ s, t = .name s := by
  intro ws d hg
  cases hg
  exact ⟨_, _, rfl, _, rfl⟩

theorem sound_read : Sound read Derives := by
  intro c
  simp only [read, always_located, always_bind, always_expect, always_pure]
  refine (OperationKind.sound_read c).mono ?_
  rintro kind d₁ ⟨k, rfl, hkey, rfl⟩ hc
  refine (TypeName.sound_read _).mono ?_
  rintro type d ⟨n, hn, htn⟩
  cases hn
  exact ⟨_, .intro ⟨kind, type, _⟩, hkey, hc, htn⟩

theorem complete_read : Complete read Derives fun _ => [] := by
  intro ws node c d hg ht hd
  cases hg
  obtain ⟨hkey, hc, hn, hlast⟩ := ht
  simp only [read, ends_located, ends_bind, ends_expect, ends_pure]
  refine (OperationKind.complete_read _ node.kind c _ rfl ⟨hkey, rfl⟩ (Cursor.clear_nil _)).mono ?_
  rintro kind _ ⟨rfl, h₁⟩
  refine ⟨hc, (TypeName.complete_read _ node.type _ d (.intro _) ⟨hn, hlast⟩
    (Cursor.clear_nil _)).mono ?_⟩
  rintro type _ ⟨rfl, h₂⟩
  refine ⟨rfl, ?_⟩
  change RootOperationType.mk (bare kind) (bare type) Span.zero =
    RootOperationType.mk (bare node.kind) (bare node.type) Span.zero
  rw [h₁, h₂]

theorem sound_readAll : Sound readAll (Enclosed .openBrace .closeBrace Derives) :=
  sound_read.enclosed (fun _ _ => starts.ne_nil) _ _

theorem complete_readAll :
    Complete readAll (Enclosed .openBrace .closeBrace Derives)
      fun ds => if ds.isEmpty then [.punctuator .openBrace] else [] :=
  complete_read.enclosed starts (by simp) (by simp) (by simp)

end RootOperationType

namespace SchemaDefinition

def bars (d : SchemaDefinition) : List Token :=
  [.punctuator .atSign, .punctuator .openParen] ++
    if d.operationTypes.isEmpty then [.punctuator .openBrace] else []

theorem addsNothing_bare (d : SchemaDefinition) : (bare d).addsNothing = d.addsNothing := by
  simp [addsNothing, bare, reshape]

theorem sound_readParts (description : Option StringValue) (c : Cursor) :
    Always (readParts description) c fun f d =>
      (∀ span, (f span).description = description ∧
        ((f span).operationTypes.isEmpty = true → d.next? ≠ some (.punctuator .openBrace))) ∧
      (∀ span, (f span).addsNothing = (f Span.zero).addsNothing ∧
        (f span).operationTypes = (f Span.zero).operationTypes) ∧
      ∃ ws, c.Takes ws d ∧ ∀ u span, StringValue.DerivesDescription u description →
        Derives (u ++ .name "schema" :: ws) (f span) := by
  simp only [readParts, always_bind, always_pure]
  refine (Directive.sound_readAll true c).mono ?_
  rintro directives d₁ ⟨v, hv, htv⟩
  refine ((always_enclosed_clear d₁).and (RootOperationType.sound_readAll d₁)).mono ?_
  rintro types d ⟨hclear, w, hw, htw⟩
  refine ⟨fun span => ⟨trivial, fun hnil => hclear (List.isEmpty_iff.mp hnil)⟩,
    fun _ => ⟨rfl, trivial⟩, v ++ w, htv.append htw, fun u span hu => ?_⟩
  exact .intro ⟨description, directives, types, span⟩ hu hv hw

theorem complete_readParts {v w : Phrase} {node : SchemaDefinition}
    {description : Option StringValue} {c d : Cursor}
    (hdescription : bare description = bare node.description)
    (hv : Directive.DerivesAll true v node.directives)
    (hw : Enclosed .openBrace .closeBrace RootOperationType.Derives w node.operationTypes)
    (ht : c.Takes (v ++ w) d) (hd : d.Clear node.bars) :
    Ends (readParts description) c fun f e => e = d ∧ ∀ span, bare (f span) = bare node := by
  obtain ⟨d₁, htv, htw⟩ := Cursor.takes_append.mp ht
  simp only [readParts, ends_bind, ends_pure]
  refine (Directive.complete_readAll true v node.directives c d₁ hv htv
    (hw.clear htw (by simp) (hd.mono (by simp +contextual [bars])))).mono ?_
  rintro directives _ ⟨rfl, h₁⟩
  refine (RootOperationType.complete_readAll w node.operationTypes _ d hw htw
    (hd.mono (by simp +contextual [bars]))).mono ?_
  rintro types _ ⟨rfl, h₂⟩
  refine ⟨rfl, fun span => ?_⟩
  change SchemaDefinition.mk (bare description) (bare directives) (bare types) Span.zero =
    SchemaDefinition.mk (bare node.description) (bare node.directives)
      (bare node.operationTypes) Span.zero
  rw [hdescription, h₁, h₂]

theorem complete_readBody {v w : Phrase} {node : SchemaDefinition}
    {description : Option StringValue} {c d : Cursor}
    (hdescription : bare description = bare node.description)
    (hv : Directive.DerivesAll true v node.directives)
    (hw : Enclosed .openBrace .closeBrace RootOperationType.Derives w node.operationTypes)
    (hne : node.operationTypes ≠ []) (ht : c.Takes (v ++ w) d) (hd : d.Clear node.bars) :
    Ends (readBody description) c fun f e => e = d ∧ ∀ span, bare (f span) = bare node := by
  simp only [readBody, ends_bind, ends_ite, ends_pure]
  refine (complete_readParts hdescription hv hw ht hd).mono ?_
  rintro f _ ⟨rfl, h⟩
  refine ⟨fun hnil => ?_, fun _ => ⟨rfl, h⟩⟩
  have htypes : bare (f Span.zero).operationTypes = bare node.operationTypes :=
    congrArg SchemaDefinition.operationTypes (h Span.zero)
  rw [List.isEmpty_iff.mp hnil] at htypes
  exact absurd (List.map_eq_nil_iff.mp htypes.symm) hne

theorem complete_read :
    Complete read (fun ws d => Derives ws d ∧ d.operationTypes ≠ []) bars := by
  rintro ws node c d ⟨hg, hne⟩ ht hd
  cases hg with
  | @intro u v w _ hu hv hw =>
    obtain ⟨d₁, htu, hkey, htr⟩ := Cursor.takes_append.mp ht
    simp only [read, ends_located, ends_bind, ends_expect]
    refine (StringValue.complete_readDescription hu htu hkey).mono ?_
    rintro description _ ⟨rfl, h₁⟩
    refine ⟨hkey, (complete_readBody h₁ hv hw hne htr hd).mono ?_⟩
    rintro f _ ⟨rfl, h₂⟩
    exact ⟨rfl, h₂ _⟩

end SchemaDefinition

namespace DirectiveLocation

theorem ofName?_eq_some_iff {s : String} {l : DirectiveLocation} :
    ofName? s = some l ↔ s = l.name := by
  constructor
  · intro h
    have hname := List.find?_some h
    exact (beq_iff_eq.mp hname).symm
  · rintro rfl
    cases l <;> rfl

theorem starts : Starts Derives fun t => ∃ s, t = .name s := by
  intro ws l hg
  cases hg
  exact ⟨_, _, rfl, _, rfl⟩

theorem sound_read : Sound read Derives := by
  intro c
  simp only [read, always_token]
  intro t l hn hl
  split at hl
  · obtain rfl := ofName?_eq_some_iff.mp hl
    exact ⟨_, .intro l, hn, rfl⟩
  · exact absurd hl (by simp)

theorem complete_read : Complete read Derives fun _ => [] := by
  intro ws l c d hg ht _
  cases hg
  simp only [read, ends_token]
  exact ⟨_, l, ht.1, ofName?_eq_some_iff.mpr rfl, ht.2.symm, rfl⟩

end DirectiveLocation

namespace DirectiveDefinition

/-- What is read behind the keyword goes with every description that there may be before it. -/
theorem sound_readBody (description : Option StringValue) (c : Cursor) :
    Always (readBody description) c fun f d =>
      ∃ ws, c.Takes ws d ∧ ∀ u span, StringValue.DerivesDescription u description →
        Derives (u ++ .name "directive" :: ws) (f span) := by
  simp only [readBody, always_bind, always_expect, always_nameToken, always_eat, always_pure]
  intro hat name hn
  refine (InputValueDefinition.sound_readArguments _).mono ?_
  rintro arguments d₁ ⟨v, hv, htv⟩
  refine ⟨fun hrep hon => ?_, fun _ hon => ?_⟩
  · refine (DirectiveLocation.sound_read.separated .pipe _).mono ?_
    rintro locations d ⟨w, hw, htw⟩
    have htail : d₁.Takes (.name "repeatable" :: .name "on" :: w) d := ⟨hrep, hon, htw⟩
    refine ⟨.mark .atSign :: .name name :: (v ++ (.name "repeatable" :: .name "on" :: w)),
      ⟨hat, hn, htv.append htail⟩, fun u span hu => ?_⟩
    exact .intro ⟨description, name, arguments, true, locations, span⟩ hu hv hw
  · refine (DirectiveLocation.sound_read.separated .pipe _).mono ?_
    rintro locations d ⟨w, hw, htw⟩
    have htail : d₁.Takes (.name "on" :: w) d := ⟨hon, htw⟩
    refine ⟨.mark .atSign :: .name name :: (v ++ .name "on" :: w),
      ⟨hat, hn, htv.append htail⟩, fun u span hu => ?_⟩
    exact .intro ⟨description, name, arguments, false, locations, span⟩ hu hv hw

theorem complete_readBody {v w : Phrase} {node : DirectiveDefinition}
    {description : Option StringValue} {c d : Cursor}
    (hdescription : bare description = bare node.description)
    (hv : InputValueDefinition.DerivesAll v node.arguments)
    (hw : Separated .pipe DirectiveLocation.Derives w node.locations)
    (ht : c.Takes (.mark .atSign :: .name node.name :: (v ++
      ((if node.repeatable then [.name "repeatable"] else []) ++ .name "on" :: w))) d)
    (hd : d.Clear [.punctuator .pipe]) :
    Ends (readBody description) c fun f e => e = d ∧ ∀ span, bare (f span) = bare node := by
  obtain ⟨hat, hn, htr⟩ := ht
  obtain ⟨d₁, htv, htr⟩ := Cursor.takes_append.mp htr
  have hlocations : ∀ e, e.Takes w d → Ends (Reader.separated .pipe DirectiveLocation.read) e
      fun ls e => e = d ∧ bare ls = bare node.locations := fun e hte =>
    DirectiveLocation.complete_read.separated DirectiveLocation.starts (by simp) w
      node.locations e d hw hte hd
  -- a place has no span, so places come back as they are
  have hsame : ∀ (arguments : List InputValueDefinition) (locations : List DirectiveLocation) span,
      bare arguments = bare node.arguments → bare locations = bare node.locations →
      bare (DirectiveDefinition.mk description node.name arguments node.repeatable locations span) =
        bare node := by
    intro arguments locations span h₁ h₂
    have hbare : ∀ ls : List DirectiveLocation, bare ls = ls := fun ls => List.map_id ls
    rw [hbare, hbare] at h₂
    change DirectiveDefinition.mk (bare description) node.name (bare arguments) node.repeatable
        locations Span.zero =
      DirectiveDefinition.mk (bare node.description) node.name (bare node.arguments)
        node.repeatable node.locations Span.zero
    rw [hdescription, h₁, h₂]
  simp only [readBody, DirectiveLocation.readAll, ends_bind, ends_expect, ends_nameToken, ends_eat,
    ends_pure]
  refine ⟨hat, node.name, hn, ?_⟩
  cases hrep : node.repeatable with
  | true =>
    simp only [hrep, if_true] at htr
    obtain ⟨hrepeatable, hon, htw⟩ := htr
    refine (InputValueDefinition.complete_readArguments v node.arguments _ d₁ hv htv
      (Cursor.clear_of_next hrepeatable (by simp))).mono ?_
    rintro arguments _ ⟨rfl, h₁⟩
    refine ⟨fun _ => ⟨hon, (hlocations _ htw).mono ?_⟩, fun hno => absurd hrepeatable hno⟩
    rintro locations _ ⟨rfl, h₂⟩
    exact ⟨rfl, fun span => hrep ▸ hsame arguments locations span h₁ h₂⟩
  | false =>
    simp only [hrep, Bool.false_eq_true, if_false] at htr
    obtain ⟨hon, htw⟩ := htr
    refine (InputValueDefinition.complete_readArguments v node.arguments _ d₁ hv htv
      (Cursor.clear_of_next hon (by simp))).mono ?_
    rintro arguments _ ⟨rfl, h₁⟩
    refine ⟨fun h => ?_, fun _ => ⟨hon, (hlocations _ htw).mono ?_⟩⟩
    · rw [hon] at h
      exact absurd h (by simp)
    · rintro locations _ ⟨rfl, h₂⟩
      exact ⟨rfl, fun span => hrep ▸ hsame arguments locations span h₁ h₂⟩

theorem complete_read : Complete read Derives fun _ => [.punctuator .pipe] := by
  intro ws node c d hg ht hd
  cases hg with
  | @intro u v w _ hu hv hw =>
    obtain ⟨d₁, htu, hkey, htr⟩ := Cursor.takes_append.mp ht
    simp only [read, ends_located, ends_bind, ends_expect]
    refine (StringValue.complete_readDescription hu htu hkey).mono ?_
    rintro description _ ⟨rfl, h₁⟩
    refine ⟨hkey, (complete_readBody h₁ hv hw htr hd).mono ?_⟩
    rintro f _ ⟨rfl, h₂⟩
    exact ⟨rfl, h₂ _⟩

end DirectiveDefinition

end GraphQLText
