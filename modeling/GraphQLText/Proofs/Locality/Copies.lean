import GraphQLText.Proofs.Locality.Depth
import GraphQLText.Proofs.Locality.Overlap

/-!
# Readers copy what overlaps

Every reader of the language gives the same nodes in streams that overlap, moved like the tokens. A
reader that is not in a constant place gives all nodes that one in a constant place gives.
-/

namespace GraphQLText

set_option autoImplicit false

open Reader

variable {o : Overlap}

theorem TypeName.copies_read : Copies o TypeName.read TypeName.read := by
  refine .located (tracks_nameToken.bind ?_)
  rintro _ name rfl
  exact tracks_pure fun _ => rfl

theorem Variable.copies_read : Copies o Variable.read Variable.read := by
  refine .located (tracks_expect.bind fun _ _ _ => tracks_nameToken.bind ?_)
  rintro _ name rfl
  exact tracks_pure fun _ => rfl

theorem BooleanValue.copies_read : Copies o BooleanValue.read BooleanValue.read := by
  refine .located (tracks_token.bind ?_)
  rintro _ value rfl
  exact tracks_pure fun _ => rfl

theorem StringValue.copies_read : Copies o StringValue.read StringValue.read := by
  refine .located (tracks_token.bind ?_)
  rintro _ ⟨value, block⟩ rfl
  exact tracks_pure fun _ => rfl

theorem Literal.copies_readInt : Copies o Literal.readInt Literal.readInt := by
  refine .located (tracks_token.bind ?_)
  rintro _ text rfl
  exact tracks_pure fun _ => rfl

theorem Literal.copies_readFloat : Copies o Literal.readFloat Literal.readFloat := by
  refine .located (tracks_token.bind ?_)
  rintro _ text rfl
  exact tracks_pure fun _ => rfl

theorem Literal.copies_readEnum : Copies o Literal.readEnum Literal.readEnum := by
  refine .located (tracks_token.bind ?_)
  rintro _ text rfl
  exact tracks_pure fun _ => rfl

theorem NamedValue.copies_read {ν : Type} [HasSpans ν] {value₁ value₂ : Reader ν}
    {expected : Construct} [Forward value₁] (h : Copies o value₁ value₂) :
    Copies o (NamedValue.read expected value₁) (NamedValue.read expected value₂) := by
  refine .located (tracks_nameToken.bind ?_)
  rintro _ name rfl
  refine tracks_expect.bind fun _ _ _ => h.bind ?_
  rintro _ v rfl
  exact tracks_pure fun _ => rfl

theorem Bracketed.tracks_read {α : Type} [HasSpans α] {item₁ item₂ : Reader α}
    {opening close : Punctuator} {expected : Construct} [Forward item₁] [Consuming item₁]
    (h : Copies o item₁ item₂) :
    Tracks o (Bracketed.read opening close expected item₁)
      (Bracketed.read opening close expected item₂) fun a b => a = b.moved o.shift := by
  refine .located (tracks_expect.bind fun _ _ _ => (h.untilClosed close).bind ?_)
  rintro _ items rfl
  exact tracks_pure fun _ => rfl

namespace Value

variable {constant₁ constant₂ : Bool}

theorem copies_readTo (hc : o.strict → constant₁ = constant₂) (depth : Nat) :
    Copies o (readTo constant₁ depth) (readTo constant₂ depth) := by
  induction depth with
  | zero => exact tracks_fail
  | succ depth ih =>
    have hforward : Forward (readTo constant₁ (depth + 1)) := inferInstance
    have hconsuming : Consuming (readTo constant₁ (depth + 1)) := inferInstance
    unfold readTo at hforward hconsuming ⊢
    refine tracks_peek_bind fun t => ?_
    split
    · refine tracks_skip.bind fun _ _ _ => tracks_pure rfl
    · exact BooleanValue.copies_read.map fun _ _ h => congrArg Value.boolean h
    · exact BooleanValue.copies_read.map fun _ _ h => congrArg Value.boolean h
    · exact Literal.copies_readEnum.map fun _ _ h => congrArg Value.enum h
    · have hread : Copies o (Value.variable <$> Variable.read) (Value.variable <$> Variable.read) :=
        Variable.copies_read.map fun _ _ h => congrArg Value.variable h
      cases constant₂ with
      | true => exact tracks_fail
      | false =>
        cases constant₁ with
        | true => exact fail_tracks fun hs => absurd (hc hs) (by simp)
        | false => exact hread
    · exact Literal.copies_readFloat.map fun _ _ h => congrArg Value.float h
    · exact Literal.copies_readInt.map fun _ _ h => congrArg Value.int h
    · exact StringValue.copies_read.map fun _ _ h => congrArg Value.string h
    · exact StringValue.copies_read.map fun _ _ h => congrArg Value.string h
    · exact (Bracketed.tracks_read ih).map fun _ b h =>
        (congrArg Value.list h).trans (moved_list o.shift b).symm
    · exact (Bracketed.tracks_read (NamedValue.copies_read ih)).map fun _ b h =>
        (congrArg Value.object h).trans (moved_object o.shift b).symm
    · exact tracks_fail

theorem copies_read (hc : o.strict → constant₁ = constant₂) :
    Copies o (read constant₁) (read constant₂) :=
  .nested (copies_readTo hc) (readTo_eq_read constant₁) (readTo_eq_read constant₂)

theorem copies_readDefault : Copies o readDefault? readDefault? :=
  (copies_read fun _ => rfl).behind _

end Value

section Constants

variable {constant₁ constant₂ : Bool} (hc : o.strict → constant₁ = constant₂)

include hc

theorem ListValue.copies_read : Copies o (ListValue.read constant₁) (ListValue.read constant₂) :=
  Bracketed.tracks_read (Value.copies_read hc)

theorem ObjectValue.copies_read :
    Copies o (ObjectValue.read constant₁) (ObjectValue.read constant₂) :=
  Bracketed.tracks_read (NamedValue.copies_read (Value.copies_read hc))

theorem Argument.copies_readAll :
    Copies o (Argument.readAll constant₁) (Argument.readAll constant₂) :=
  Copies.enclosed (NamedValue.copies_read (Value.copies_read hc)) _ _

theorem Directive.copies_read : Copies o (Directive.read constant₁) (Directive.read constant₂) := by
  refine .located (tracks_expect.bind fun _ _ _ => tracks_nameToken.bind ?_)
  rintro _ name rfl
  refine (Argument.copies_readAll hc).bind ?_
  rintro _ arguments rfl
  exact tracks_pure fun _ => rfl

theorem Directive.copies_readAll :
    Copies o (Directive.readAll constant₁) (Directive.readAll constant₂) :=
  (Directive.copies_read hc).whileMore tracks_at?

end Constants

namespace TypeRef

theorem copies_readUnmarked {inner : Reader TypeRef} [Forward inner] (h : Copies o inner inner) :
    Copies o (readUnmarked inner) (readUnmarked inner) := by
  have hforward : Forward (readUnmarked inner) := inferInstance
  have hconsuming : Consuming (readUnmarked inner) := inferInstance
  unfold readUnmarked at hforward hconsuming ⊢
  refine tracks_peek_bind fun t => ?_
  split
  · refine tracks_skip.bind fun _ _ _ => h.bind ?_
    rintro _ t rfl
    exact tracks_expect.bind fun _ _ _ => tracks_pure rfl
  · exact TypeName.copies_read.map fun _ _ h => congrArg TypeRef.named h
  · exact tracks_fail

theorem copies_readTo (depth : Nat) : Copies o (readTo depth) (readTo depth) := by
  induction depth with
  | zero => exact tracks_fail
  | succ depth ih =>
    refine (copies_readUnmarked ih).bind ?_
    rintro _ t rfl
    refine tracks_eat.bind ?_
    rintro marked _ rfl
    exact .ite Iff.rfl (fun _ => Tracks.ifAt tracks_fail (tracks_pure rfl)) fun _ => tracks_pure rfl

theorem copies_read : Copies o read read :=
  .nested copies_readTo readTo_eq_read readTo_eq_read

end TypeRef

section Selections

variable {selection : Reader Selection} [Forward selection] [Consuming selection]

theorem SelectionSet.copies_readBraced (h : Copies o selection selection) :
    Copies o (readBraced selection) (readBraced selection) := by
  refine .located (tracks_expect.bind fun _ _ _ => h.bind ?_)
  rintro _ first rfl
  refine (h.untilClosed _).bind ?_
  rintro _ rest rfl
  exact tracks_pure fun _ => rfl

theorem SelectionSet.copies_readOf (h : Copies o selection selection) :
    Copies o (readOf selection) (readOf selection) := by
  rw [readOf_eq]
  exact Tracks.ifAt (copies_readBraced h) (tracks_pure rfl)

theorem SelectionSet.copies_readBodyOf {expected : Construct} (h : Copies o selection selection) :
    Copies o (readBodyOf expected selection) (readBodyOf expected selection) := by
  rw [readBodyOf_eq]
  exact Tracks.ifAt (copies_readBraced h) tracks_fail

theorem Field.copies_readOf (h : Copies o selection selection) :
    Copies o (Field.readOf selection) (Field.readOf selection) := by
  refine .located (tracks_nameToken.bind ?_)
  rintro _ first rfl
  have hsecond : Tracks o (behind? (.punctuator .colon) (nameToken .field))
      (behind? (.punctuator .colon) (nameToken .field)) Eq := by
    refine tracks_eat.bind ?_
    rintro found _ rfl
    exact .ite Iff.rfl (fun _ => tracks_nameToken.map fun _ _ => congrArg some) fun _ =>
      tracks_pure rfl
  refine hsecond.bind ?_
  rintro _ second rfl
  refine (Argument.copies_readAll fun _ => rfl).bind ?_
  rintro _ arguments rfl
  refine (Directive.copies_readAll fun _ => rfl).bind ?_
  rintro _ directives rfl
  refine (SelectionSet.copies_readOf h).bind ?_
  rintro _ selections rfl
  exact tracks_pure fun _ => rfl

omit [Forward selection] [Consuming selection] in
theorem FragmentSpread.copies_read : Copies o FragmentSpread.read FragmentSpread.read := by
  refine .located (tracks_eat.bind fun _ _ _ => Tracks.ifAt tracks_fail ?_)
  refine TypeName.copies_read.relabel.bind ?_
  rintro _ name rfl
  refine (Directive.copies_readAll fun _ => rfl).bind ?_
  rintro _ directives rfl
  exact tracks_pure fun _ => rfl

theorem InlineFragment.copies_readOf (h : Copies o selection selection) :
    Copies o (InlineFragment.readOf selection) (InlineFragment.readOf selection) := by
  refine .located (tracks_eat.bind fun _ _ _ => (TypeName.copies_read.behind _).bind ?_)
  rintro _ condition rfl
  refine (Directive.copies_readAll fun _ => rfl).bind ?_
  rintro _ directives rfl
  refine (SelectionSet.copies_readBodyOf h).bind ?_
  rintro _ selections rfl
  exact tracks_pure fun _ => rfl

namespace Selection

omit [Forward selection] [Consuming selection] in
/-- What is read behind a skipped token is told from the next one. -/
theorem copies_skip_peek {f : Option Token → Reader (Span → Selection)}
    (hforward : ∀ t, Forward (f t)) (hconsuming : ∀ t, Consuming (f t))
    (h : ∀ t, Tracks o (f t) (f t) fun f g =>
      ∀ span : Span, f (span.moved o.shift) = moved o.shift (g span)) :
    Copies o (located (skip >>= fun _ => peek >>= f)) (located (skip >>= fun _ => peek >>= f)) :=
  .located (tracks_skip.bind fun _ _ _ => tracks_peek_bind h)

theorem copies_readFragmentOf (h : Copies o selection selection) :
    Copies o (readFragmentOf selection) (readFragmentOf selection) := by
  have hinline : Tracks o
      (InlineFragment.readOf selection >>= fun f =>
        pure fun span => Selection.inline { f with span })
      (InlineFragment.readOf selection >>= fun f =>
        pure fun span => Selection.inline { f with span })
      fun f g => ∀ span : Span, f (span.moved o.shift) = moved o.shift (g span) := by
    refine (InlineFragment.copies_readOf h).bind ?_
    rintro _ f rfl
    exact tracks_pure fun span => (moved_inline o.shift { f with span }).symm
  refine copies_skip_peek (fun t => ?_) (fun t => ?_) fun t => ?_
  · split <;> infer_instance
  · split <;> infer_instance
  · split
    · exact hinline
    · exact hinline
    · exact hinline
    · refine FragmentSpread.copies_read.bind ?_
      rintro _ s rfl
      exact tracks_pure fun _ => rfl
    · exact tracks_fail

omit [Forward selection] [Consuming selection] in
theorem copies_readTo (depth : Nat) : Copies o (readTo depth) (readTo depth) := by
  induction depth with
  | zero => exact tracks_fail
  | succ depth ih =>
    have hforward : Forward (readTo (depth + 1)) := inferInstance
    have hconsuming : Consuming (readTo (depth + 1)) := inferInstance
    unfold readTo at hforward hconsuming ⊢
    refine tracks_peek_bind fun t => ?_
    split
    · exact (Field.copies_readOf ih).map fun _ f h =>
        (congrArg Selection.field h).trans (moved_field o.shift f).symm
    · exact copies_readFragmentOf ih
    · exact tracks_fail

omit [Forward selection] [Consuming selection] in
theorem copies_read : Copies o read read :=
  .nested copies_readTo readTo_eq_read readTo_eq_read

end Selection

end Selections

theorem OperationKind.tracks_read : Tracks o OperationKind.read OperationKind.read Eq :=
  tracks_token

theorem VariableDefinition.copies_read :
    Copies o VariableDefinition.read VariableDefinition.read := by
  refine .located (Variable.copies_read.bind ?_)
  rintro _ var rfl
  refine tracks_expect.bind fun _ _ _ => TypeRef.copies_read.bind ?_
  rintro _ type rfl
  refine Value.copies_readDefault.bind ?_
  rintro _ default rfl
  refine (Directive.copies_readAll fun _ => rfl).bind ?_
  rintro _ directives rfl
  exact tracks_pure fun _ => rfl

namespace OperationDefinition

theorem copies_readName : Copies o readName? readName? := by
  have hread : Copies o (some <$> TypeName.read) (some <$> TypeName.read) :=
    TypeName.copies_read.map fun _ _ => congrArg some
  refine tracks_peek_upTo (fun t => ∃ s, t = some (.name s)) (fun t => ?_) ?_ (fun t => ?_)
    fun t hno => ?_
  · split <;> infer_instance
  · rintro _ ⟨s, rfl⟩
    infer_instance
  · split
    · exact hread
    · exact tracks_pure rfl
  · split
    · next s => exact absurd ⟨s, rfl⟩ hno
    · exact tracks_pure rfl

theorem copies_readLong : Copies o readLong readLong := by
  refine .located (OperationKind.tracks_read.relabel.bind ?_)
  rintro _ kind rfl
  refine copies_readName.bind ?_
  rintro _ name rfl
  refine (VariableDefinition.copies_read.enclosed _ _).bind ?_
  rintro _ definitions rfl
  refine (Directive.copies_readAll fun _ => rfl).bind ?_
  rintro _ directives rfl
  refine (SelectionSet.copies_readBodyOf Selection.copies_read).bind ?_
  rintro _ selections rfl
  exact tracks_pure fun _ => rfl

theorem copies_read : Copies o read read := by
  rw [read_eq]
  refine Tracks.ifAt (.located ?_) copies_readLong
  refine (SelectionSet.copies_readBraced Selection.copies_read).bind ?_
  rintro _ selections rfl
  exact tracks_pure fun _ => rfl

end OperationDefinition

theorem FragmentDefinition.copies_read :
    Copies o FragmentDefinition.read FragmentDefinition.read := by
  refine .located (tracks_expect.bind fun _ _ _ => Tracks.ifAt tracks_fail ?_)
  refine TypeName.copies_read.bind ?_
  rintro _ name rfl
  refine tracks_expect.bind fun _ _ _ => TypeName.copies_read.bind ?_
  rintro _ condition rfl
  refine (Directive.copies_readAll fun _ => rfl).bind ?_
  rintro _ directives rfl
  refine (SelectionSet.copies_readBodyOf Selection.copies_read).bind ?_
  rintro _ selections rfl
  exact tracks_pure fun _ => rfl

theorem StringValue.copies_readDescription :
    Copies o StringValue.readDescription? StringValue.readDescription? := by
  have hread : Copies o (some <$> StringValue.read) (some <$> StringValue.read) :=
    StringValue.copies_read.map fun _ _ => congrArg some
  refine tracks_peek_upTo (fun t => ∃ u : Token, t = some u ∧ u.isString = true) (fun t => ?_) ?_
    (fun t => ?_) fun t hno => ?_
  · split <;> infer_instance
  · rintro _ ⟨u, rfl, hu⟩
    cases u with
    | string v => infer_instance
    | blockString v => infer_instance
    | _ => exact absurd hu (by simp [Token.isString])
  · split
    · exact hread
    · exact hread
    · exact tracks_pure rfl
  · split
    · exact absurd ⟨_, rfl, rfl⟩ hno
    · exact absurd ⟨_, rfl, rfl⟩ hno
    · exact tracks_pure rfl

theorem InputValueDefinition.copies_read :
    Copies o InputValueDefinition.read InputValueDefinition.read := by
  refine .located (StringValue.copies_readDescription.bind ?_)
  rintro _ description rfl
  refine tracks_nameToken.bind ?_
  rintro _ name rfl
  refine tracks_expect.bind fun _ _ _ => TypeRef.copies_read.bind ?_
  rintro _ type rfl
  refine Value.copies_readDefault.bind ?_
  rintro _ default rfl
  refine (Directive.copies_readAll fun _ => rfl).bind ?_
  rintro _ directives rfl
  exact tracks_pure fun _ => rfl

theorem InputValueDefinition.copies_readArguments :
    Copies o InputValueDefinition.readArguments InputValueDefinition.readArguments :=
  InputValueDefinition.copies_read.enclosed _ _

theorem FieldDefinition.copies_read {constant₁ constant₂ : Bool}
    (hc : o.strict → constant₁ = constant₂) :
    Copies o (FieldDefinition.read constant₁) (FieldDefinition.read constant₂) := by
  refine .located (StringValue.copies_readDescription.bind ?_)
  rintro _ description rfl
  refine tracks_nameToken.bind ?_
  rintro _ name rfl
  refine InputValueDefinition.copies_readArguments.bind ?_
  rintro _ arguments rfl
  refine tracks_expect.bind fun _ _ _ => TypeRef.copies_read.bind ?_
  rintro _ type rfl
  refine (Directive.copies_readAll hc).bind ?_
  rintro _ directives rfl
  exact tracks_pure fun _ => rfl

theorem EnumValueDefinition.copies_read {constant₁ constant₂ : Bool}
    (hc : o.strict → constant₁ = constant₂) :
    Copies o (EnumValueDefinition.read constant₁) (EnumValueDefinition.read constant₂) := by
  refine .located (StringValue.copies_readDescription.bind ?_)
  rintro _ description rfl
  refine tracks_token.bind ?_
  rintro _ name rfl
  refine (Directive.copies_readAll hc).bind ?_
  rintro _ directives rfl
  exact tracks_pure fun _ => rfl

theorem TypeName.copies_readListBehind (introducer : Token) (separator : Punctuator) :
    Copies o (TypeName.readListBehind introducer separator)
      (TypeName.readListBehind introducer separator) := by
  refine tracks_eat.bind ?_
  rintro found _ rfl
  exact .ite Iff.rfl (fun _ => TypeName.copies_read.separated _) fun _ => tracks_pure rfl

theorem TypeContent.tracks_readWithDirectives (kind : TypeKind) :
    Tracks o (TypeContent.readWithDirectives kind) (TypeContent.readWithDirectives kind)
      fun p q => p = (moved o.shift q.1, moved o.shift q.2) := by
  have hdirectives : Copies o (Directive.readAll true) (Directive.readAll true) :=
    Directive.copies_readAll fun _ => rfl
  have hfields : Copies o (FieldDefinition.readAll true) (FieldDefinition.readAll true) :=
    Copies.enclosed (FieldDefinition.copies_read fun _ => rfl) _ _
  cases kind with
  | scalar =>
    refine hdirectives.bind ?_
    rintro _ directives rfl
    exact tracks_pure rfl
  | object | interface =>
    refine (TypeName.copies_readListBehind _ _).bind ?_
    rintro _ interfaces rfl
    refine hdirectives.bind ?_
    rintro _ directives rfl
    refine hfields.bind ?_
    rintro _ fields rfl
    exact tracks_pure rfl
  | union =>
    refine hdirectives.bind ?_
    rintro _ directives rfl
    refine (TypeName.copies_readListBehind _ _).bind ?_
    rintro _ members rfl
    exact tracks_pure rfl
  | enum =>
    refine hdirectives.bind ?_
    rintro _ directives rfl
    refine (Copies.enclosed (EnumValueDefinition.copies_read fun _ => rfl) _ _).bind ?_
    rintro _ values rfl
    exact tracks_pure rfl
  | inputObject =>
    refine hdirectives.bind ?_
    rintro _ directives rfl
    refine (InputValueDefinition.copies_read.enclosed _ _).bind ?_
    rintro _ fields rfl
    exact tracks_pure rfl

section Definitions

variable {description : Option StringValue}

/-- Behind a description that is moved, the whole definition is. -/
theorem TypeDefinition.tracks_readBody (kind : TypeKind) :
    Tracks o (readBody kind (moved o.shift description)) (readBody kind description) fun f g =>
      ∀ span span' : Span, (f span).addsNothing = (g span').addsNothing ∧
        f (span.moved o.shift) = moved o.shift (g span) := by
  refine TypeName.copies_read.bind ?_
  rintro _ name rfl
  refine (TypeContent.tracks_readWithDirectives kind).bind ?_
  rintro _ ⟨directives, content⟩ rfl
  refine tracks_pure fun span span' => ⟨?_, rfl⟩
  cases content <;>
    simp [addsNothing, TypeContent.isEmpty, HasSpans.moved, TypeContent.moveBy]

theorem RootOperationType.copies_read :
    Copies o RootOperationType.read RootOperationType.read := by
  refine .located (OperationKind.tracks_read.bind ?_)
  rintro _ kind rfl
  refine tracks_expect.bind fun _ _ _ => TypeName.copies_read.bind ?_
  rintro _ type rfl
  exact tracks_pure fun _ => rfl

namespace SchemaDefinition

theorem tracks_readParts :
    Tracks o (readParts (moved o.shift description)) (readParts description) fun f g =>
      ∀ span span' : Span, (f span).addsNothing = (g span').addsNothing ∧
        (f span).operationTypes.isEmpty = (g span').operationTypes.isEmpty ∧
        f (span.moved o.shift) = moved o.shift (g span) := by
  refine (Directive.copies_readAll fun _ => rfl).bind ?_
  rintro _ directives rfl
  refine (RootOperationType.copies_read.enclosed _ _).bind ?_
  rintro _ types rfl
  refine tracks_pure fun span span' => ⟨?_, isEmpty_moved _ _, rfl⟩
  simp only [addsNothing, isEmpty_moved]

theorem tracks_readBody :
    Tracks o (readBody (moved o.shift description)) (readBody description) fun f g =>
      ∀ span : Span, f (span.moved o.shift) = moved o.shift (g span) := by
  refine tracks_readParts.bind fun f g h => ?_
  have hempty := (h Span.zero Span.zero).2.1
  exact .ite (by rw [hempty]) (fun _ => tracks_fail) fun _ =>
    tracks_pure fun span => (h span span).2.2

end SchemaDefinition

theorem DirectiveDefinition.tracks_readBody :
    Tracks o (readBody (moved o.shift description)) (readBody description) fun f g =>
      ∀ span : Span, f (span.moved o.shift) = moved o.shift (g span) := by
  refine tracks_expect.bind fun _ _ _ => tracks_nameToken.bind ?_
  rintro _ name rfl
  refine InputValueDefinition.copies_readArguments.bind ?_
  rintro _ arguments rfl
  refine tracks_eat.bind ?_
  rintro repeatable _ rfl
  have hlocation : Copies o DirectiveLocation.read DirectiveLocation.read := tracks_token
  refine tracks_expect.bind fun _ _ _ => (hlocation.separated _).bind ?_
  rintro _ locations rfl
  have hlocations : moved o.shift locations = locations := List.map_id locations
  rw [hlocations]
  exact tracks_pure fun _ => rfl

end Definitions

namespace Definition

/-- A part of a schema is tracked behind its keyword if it is for every description before that. -/
theorem copies_described {expected : Construct} {accept : Token → Option SchemaPart}
    {f : Option StringValue → SchemaPart → Reader (Span → Definition)}
    (hforward : ∀ description part, Forward (f description part))
    (h : ∀ description part, Tracks o (f (moved o.shift description) part) (f description part)
      fun f g => ∀ span : Span, f (span.moved o.shift) = moved o.shift (g span)) :
    Copies o
      (located (StringValue.readDescription? >>= fun description =>
        token expected accept >>= f description))
      (located (StringValue.readDescription? >>= fun description =>
        token expected accept >>= f description)) := by
  refine .located (StringValue.copies_readDescription.bind ?_)
  rintro _ description rfl
  refine tracks_token.bind ?_
  rintro part _ rfl
  exact h description part

theorem copies_readTypeSystem : Copies o readTypeSystem readTypeSystem := by
  refine copies_described (fun description part => ?_) fun description part => ?_
  · cases part <;> infer_instance
  · cases part with
    | schema =>
      exact SchemaDefinition.tracks_readBody.bind fun f g h =>
        tracks_pure fun span => congrArg Definition.schema (h span)
    | directive =>
      exact DirectiveDefinition.tracks_readBody.bind fun f g h =>
        tracks_pure fun span => congrArg Definition.directive (h span)
    | type kind =>
      exact (TypeDefinition.tracks_readBody kind).bind fun f g h =>
        tracks_pure fun span => congrArg Definition.type (h span span).2

theorem copies_extending {expected : Construct} {accept : Token → Option (Option TypeKind)}
    {f : Option TypeKind → Reader (Span → Definition)} (hforward : ∀ kind, Forward (f kind))
    (h : ∀ kind, Tracks o (f kind) (f kind)
      fun f g => ∀ span : Span, f (span.moved o.shift) = moved o.shift (g span)) :
    Copies o
      (located (expect (.name "extend") expected >>= fun _ => token expected accept >>= f))
      (located (expect (.name "extend") expected >>= fun _ => token expected accept >>= f)) := by
  refine .located (tracks_expect.bind fun _ _ _ => tracks_token.bind ?_)
  rintro kind _ rfl
  exact h kind

theorem copies_readExtension : Copies o readExtension readExtension := by
  refine copies_extending (fun kind => ?_) fun kind => ?_
  · cases kind <;> infer_instance
  · cases kind with
    | none =>
      refine (@SchemaDefinition.tracks_readParts o none).bind fun f g h => ?_
      have hadds := (h Span.zero Span.zero).1
      exact .ite (by rw [hadds]) (fun _ => tracks_fail) fun _ =>
        tracks_pure fun span => congrArg Definition.schemaExtension (h span span).2.2
    | some kind =>
      refine (@TypeDefinition.tracks_readBody o none kind).bind fun f g h => ?_
      have hadds := (h Span.zero Span.zero).1
      exact .ite (by rw [hadds]) (fun _ => tracks_fail) fun _ =>
        tracks_pure fun span => congrArg Definition.typeExtension (h span span).2

theorem copies_read : Copies o read read := by
  have hforward : Forward read := inferInstance
  have hconsuming : Consuming read := inferInstance
  have hoperation : Copies o (operation <$> OperationDefinition.read)
      (operation <$> OperationDefinition.read) :=
    OperationDefinition.copies_read.map fun _ _ h => congrArg Definition.operation h
  unfold read at hforward hconsuming ⊢
  refine tracks_peek_bind fun t => ?_
  split
  · exact hoperation
  · exact copies_readTypeSystem
  · exact copies_readTypeSystem
  · exact FragmentDefinition.copies_read.map fun _ _ h => congrArg Definition.fragment h
  · exact copies_readExtension
  · exact .ite Iff.rfl (fun _ => hoperation) fun _ =>
      .ite Iff.rfl (fun _ => copies_readTypeSystem) fun _ => tracks_fail
  · exact tracks_fail

end Definition

namespace Document

theorem tracks_more : TracksUpTo o (· = true) more more Eq := by
  rintro c₁ c₂ _ _ hmeets ⟨⟩
  refine ⟨?_, fun _ f h₁ => (by cases h₁)⟩
  rintro a d h₁ hw heager
  cases h₁
  rcases hw with hlt | ⟨hs, heq⟩
  · rw [(hmeets.cases_of_lt hlt).2.2.2]
    exact ⟨rfl, hmeets⟩
  · rw [(hmeets.cases_of_eq hs heq).2]
    refine ⟨?_, hmeets⟩
    cases hn : c₁.isComplete with
    | true => rfl
    | false =>
      have hlt := heager (by rw [hn]; rfl)
      omega

theorem copies_definitions :
    Copies o (whileMore more Definition.read) (whileMore more Definition.read) :=
  Definition.copies_read.whileMore tracks_more

end Document

end GraphQLText
