import GraphQLText.Proofs.Locality.Depth
import GraphQLText.Production

/-!
# Readers are prompt

A reader decides by the tokens up to the one ahead of it. Where it succeeds with a token ahead, or
fails at a token, the tokens behind that one might as well be others: it succeeds with the same node,
or fails at the same token with the same expectation. Like going forward, this is found from the text
of a reader.
-/

namespace GraphQLText

set_option autoImplicit false

/-- Other tokens in place of the last ones of a stream. -/
structure Exchange where
  count : Nat
  tokens : List PlacedToken
  ending : Ending

namespace Cursor

def exchange (x : Exchange) (c : Cursor) : Cursor :=
  ⟨c.tokens.take (c.tokens.length - x.count) ++ x.tokens, x.ending, c.lastEnd⟩

variable {x : Exchange} {c : Cursor}

/-- A token ahead that is not exchanged stays where it is. -/
theorem exchange_cons {t : PlacedToken} {rest : List PlacedToken} (ending : Ending)
    (lastEnd : Nat) (h : x.count ≤ rest.length) :
    exchange x ⟨t :: rest, ending, lastEnd⟩ =
      { exchange x ⟨rest, ending, lastEnd⟩ with
        tokens := t :: (exchange x ⟨rest, ending, lastEnd⟩).tokens } := by
  simp [exchange, Nat.succ_sub h]

/-- All that is told of a place from the token ahead is the same. -/
theorem ahead_exchange (h : x.count < c.tokens.length) :
    (c.exchange x).next? = c.next? ∧ (c.exchange x).nextSpan = c.nextSpan ∧
      (c.exchange x).isComplete = c.isComplete ∧
      (c.exchange x).advance = c.advance.exchange x := by
  obtain ⟨tokens, ending, lastEnd⟩ := c
  cases tokens with
  | nil => cases h
  | cons t rest =>
    rw [exchange_cons ending lastEnd (Nat.le_of_lt_succ h)]
    exact ⟨rfl, rfl, rfl, rfl⟩

theorem next?_exchange (h : x.count < c.tokens.length) : (c.exchange x).next? = c.next? :=
  (ahead_exchange h).1

theorem nextSpan_exchange (h : x.count < c.tokens.length) :
    (c.exchange x).nextSpan = c.nextSpan :=
  (ahead_exchange h).2.1

theorem isComplete_exchange (h : x.count < c.tokens.length) :
    (c.exchange x).isComplete = c.isComplete :=
  (ahead_exchange h).2.2.1

theorem advance_exchange (h : x.count < c.tokens.length) :
    (c.exchange x).advance = c.advance.exchange x :=
  (ahead_exchange h).2.2.2

theorem length_exchange (h : x.count ≤ c.tokens.length) :
    (c.exchange x).tokens.length + x.count = c.tokens.length + x.tokens.length := by
  simp only [exchange, List.length_append, List.length_take]
  omega

end Cursor

def Failure.exchange (x : Exchange) (f : Failure) : Failure :=
  ⟨f.expected, f.place.exchange x⟩

namespace Reader

variable {α β : Type}

/-- The reader does not look behind the token ahead of it. -/
class Prompt (r : Reader α) : Prop extends Forward r where
  ok : ∀ x c a d, r c = .ok (a, d) → x.count < d.tokens.length →
    r (c.exchange x) = .ok (a, d.exchange x)
  error : ∀ x c f, r c = .error f → x.count < f.place.tokens.length →
    r (c.exchange x) = .error (f.exchange x)

instance Prompt.bind {r : Reader α} {f : α → Reader β} [Prompt r] [∀ a, Prompt (f a)] :
    Prompt (r >>= f) where
  ok x c b e h hx := by
    obtain ⟨a, d, hr, hf⟩ := bind_eq_ok.mp h
    have hle := (Forward.reaches d b e hf).length_le
    exact bind_eq_ok.mpr ⟨a, _, Prompt.ok x c a d hr (by omega), Prompt.ok x d b e hf hx⟩
  error x c failure h hx := by
    rcases bind_eq_error.mp h with hr | ⟨a, d, hr, hf⟩
    · exact bind_eq_error.mpr (.inl (Prompt.error x c failure hr hx))
    · have hle := (Forward.reaches_place d failure hf).length_le
      exact bind_eq_error.mpr (.inr ⟨a, _, Prompt.ok x c a d hr (by omega),
        Prompt.error x d failure hf hx⟩)

instance Prompt.pure (a : α) : Prompt (pure a : Reader α) where
  ok := by
    rintro x c b d ⟨⟩ -
    rfl
  error := by
    rintro x c f ⟨⟩

instance Prompt.map {r : Reader α} {f : α → β} [Prompt r] : Prompt (f <$> r) := by
  rw [← bind_pure_comp]
  infer_instance

instance Prompt.ite {p : Prop} [Decidable p] {r s : Reader α} [Prompt r] [Prompt s] :
    Prompt (if p then r else s) := by
  split <;> assumption

instance Prompt.fail (expected : Construct) : Prompt (fail expected : Reader α) where
  ok := by
    rintro x c a d ⟨⟩
  error := by
    rintro x c f ⟨⟩ -
    rfl

instance : Prompt peek where
  ok := by
    rintro x c a d ⟨⟩ hx
    rw [peek, Cursor.next?_exchange hx]
  error := by
    rintro x c f ⟨⟩

instance : Prompt skip where
  ok := by
    rintro x c a d ⟨⟩ hx
    have hle := c.reaches_advance.length_le
    rw [skip, Cursor.advance_exchange (by omega)]
  error := by
    rintro x c f ⟨⟩

instance : Prompt nextStart where
  ok := by
    rintro x c a d ⟨⟩ hx
    rw [nextStart, Cursor.nextSpan_exchange hx]
  error := by
    rintro x c f ⟨⟩

instance (t : Token) : Prompt (at? t) where
  ok := by
    rintro x c a d ⟨⟩ hx
    rw [at?, Cursor.next?_exchange hx]
  error := by
    rintro x c f ⟨⟩

instance (t : Token) : Prompt (eat t) where
  ok x c a d h hx := by
    have hle := c.reaches_advance.length_le
    unfold eat at h ⊢
    split at h <;> cases h
    · next hn => rw [Cursor.next?_exchange (by omega), if_pos hn, Cursor.advance_exchange (by omega)]
    · next hn => rw [Cursor.next?_exchange hx, if_neg hn]
  error x c f h := by
    unfold eat at h
    split at h <;> cases h

section Tokens

variable {expected : Construct}

instance Prompt.token {accept : Token → Option α} : Prompt (token expected accept) where
  ok x c a d h hx := by
    have hle := c.reaches_advance.length_le
    unfold Reader.token at h ⊢
    split at h <;> cases h
    next hn => rw [Cursor.next?_exchange (by omega), hn, Cursor.advance_exchange (by omega)]
  error x c f h hx := by
    unfold Reader.token at h ⊢
    split at h <;> cases h
    next hn =>
      rw [Cursor.next?_exchange hx, hn]
      rfl

instance (t : Token) : Prompt (expect t expected) :=
  Prompt.token

instance : Prompt (nameToken expected) :=
  Prompt.token

end Tokens

section Parts

variable {r : Reader α}

instance Prompt.located {r : Reader (Span → α)} [Prompt r] : Prompt (located r) where
  ok x c a d h hx := by
    obtain ⟨node, hr, rfl⟩ := located_eq_ok.mp h
    have hle := (Forward.reaches c node d hr).length_le
    refine located_eq_ok.mpr ⟨node, Prompt.ok x c node d hr hx, ?_⟩
    rw [Cursor.nextSpan_exchange (by omega)]
    rfl
  error x c f h hx := located_eq_error.mpr (Prompt.error x c f (located_eq_error.mp h) hx)

instance Prompt.relabel {expected : Construct} [Prompt r] : Prompt (relabel expected r) where
  ok x c a d h hx := relabel_eq_ok.mpr (Prompt.ok x c a d (relabel_eq_ok.mp h) hx)
  error x c f h hx := by
    unfold Reader.relabel at h ⊢
    cases hr : r c with
    | ok p => simp [hr] at h
    | error g =>
      simp only [hr, Except.error.injEq] at h
      obtain rfl := h
      rw [Prompt.error x c g hr hx]
      rfl

instance Prompt.endOfInput : Prompt endOfInput where
  ok x c a d h hx := by
    unfold Reader.endOfInput at h ⊢
    split at h <;> cases h
    next hc => rw [Cursor.isComplete_exchange hx, if_pos hc]
  error x c f h hx := by
    unfold Reader.endOfInput at h ⊢
    split at h <;> cases h
    next hc =>
      rw [Cursor.isComplete_exchange hx, if_neg hc]
      rfl

instance Prompt.whole [Prompt r] : Prompt (whole r) := by
  unfold Reader.whole
  infer_instance

/-- A reader of nodes that nest is prompt if it is so with every bound on the depth. -/
theorem Prompt.of_depths {readTo : Nat → Reader α} [Forward r] [∀ depth, Prompt (readTo depth)]
    (h : ∀ c depth, c.tokens.length < depth → readTo depth c = r c) : Prompt r where
  ok x c a d hr hx := by
    rw [← h c (c.tokens.length + (c.exchange x).tokens.length + 1) (by omega)] at hr
    rw [← h (c.exchange x) (c.tokens.length + (c.exchange x).tokens.length + 1) (by omega)]
    exact Prompt.ok x c a d hr hx
  error x c f hr hx := by
    rw [← h c (c.tokens.length + (c.exchange x).tokens.length + 1) (by omega)] at hr
    rw [← h (c.exchange x) (c.tokens.length + (c.exchange x).tokens.length + 1) (by omega)]
    exact Prompt.error x c f hr hx

section Items

variable {more : Reader Bool} {item : Reader α}

instance Prompt.whileMore [Prompt more] [Prompt item] :
    Prompt (whileMore more item) := by
  have hrun : ∀ x n, ∀ c : Cursor, c.tokens.length = n →
      (∀ as d, Reader.whileMore more item c = .ok (as, d) → x.count < d.tokens.length →
        Reader.whileMore more item (c.exchange x) = .ok (as, d.exchange x)) ∧
      ∀ f, Reader.whileMore more item c = .error f → x.count < f.place.tokens.length →
        Reader.whileMore more item (c.exchange x) = .error (f.exchange x) := by
    intro x n
    induction n using Nat.strongRecOn with
    | ind n ih =>
      rintro c rfl
      constructor
      · intro as last h hx
        rcases whileMore_eq_ok.mp h with ⟨hm, rfl⟩ | ⟨d, a, e, hm, hi, hrest⟩
        · exact whileMore_eq_ok.mpr (.inl ⟨Prompt.ok x c false last hm hx, rfl⟩)
        · have hcd := (Forward.reaches c true d hm).length_le
          have hde := (Forward.reaches d a e hi).length_le
          split at hrest
          · next hlt =>
            obtain ⟨bs, hw, rfl⟩ := hrest
            have hle := (Forward.reaches e bs last hw).length_le
            -- the item takes a token in the one stream if it does so in the other
            have hlen := Cursor.length_exchange (x := x) (c := c) (by omega)
            have hlen' := Cursor.length_exchange (x := x) (c := e) (by omega)
            refine whileMore_eq_ok.mpr (.inr ⟨_, a, _, Prompt.ok x c true d hm (by omega),
              Prompt.ok x d a e hi (by omega), ?_⟩)
            rw [if_pos (by omega)]
            exact ⟨bs, (ih _ hlt e rfl).1 bs last hw hx, rfl⟩
          · next hlt =>
            obtain ⟨rfl, rfl⟩ := hrest
            have hlen := Cursor.length_exchange (x := x) (c := c) (by omega)
            have hlen' := Cursor.length_exchange (x := x) (c := last) (by omega)
            refine whileMore_eq_ok.mpr (.inr ⟨_, a, _, Prompt.ok x c true d hm (by omega),
              Prompt.ok x d a last hi (by omega), ?_⟩)
            rw [if_neg (by omega)]
            exact ⟨rfl, rfl⟩
      · intro f h hx
        rcases whileMore_eq_error.mp h with hm | ⟨d, hm, hi | ⟨a, e, hi, hlt, hw⟩⟩
        · exact whileMore_eq_error.mpr (.inl (Prompt.error x c f hm hx))
        · have hle := (Forward.reaches_place d f hi).length_le
          exact whileMore_eq_error.mpr (.inr ⟨_, Prompt.ok x c true d hm (by omega),
            .inl (Prompt.error x d f hi hx)⟩)
        · have hcd := (Forward.reaches c true d hm).length_le
          have hde := (Forward.reaches d a e hi).length_le
          have hle := (Forward.reaches_place e f hw).length_le
          have hlen := Cursor.length_exchange (x := x) (c := c) (by omega)
          have hlen' := Cursor.length_exchange (x := x) (c := e) (by omega)
          exact whileMore_eq_error.mpr (.inr ⟨_, Prompt.ok x c true d hm (by omega),
            .inr ⟨a, _, Prompt.ok x d a e hi (by omega), by omega, (ih _ hlt e rfl).2 f hw hx⟩⟩)
  exact ⟨fun x c => (hrun x _ c rfl).1, fun x c => (hrun x _ c rfl).2⟩

end Items

variable {item : Reader α} [Prompt item]

instance (close : Punctuator) : Prompt (untilClosed close item) := by
  unfold untilClosed
  infer_instance

instance (opening close : Punctuator) : Prompt (enclosed opening close item) := by
  unfold enclosed
  infer_instance

instance (separator : Punctuator) : Prompt (separated separator item) := by
  unfold separated
  infer_instance

instance (t : Token) [Prompt r] : Prompt (behind? t r) := by
  unfold behind?
  infer_instance

end Parts

end Reader

open Reader

section Values

instance : Prompt TypeName.read := by
  unfold TypeName.read
  infer_instance

instance : Prompt Variable.read := by
  unfold Variable.read
  infer_instance

instance : Prompt BooleanValue.read := by
  unfold BooleanValue.read
  infer_instance

instance : Prompt StringValue.read := by
  unfold StringValue.read
  infer_instance

instance : Prompt Literal.readInt := by
  unfold Literal.readInt
  infer_instance

instance : Prompt Literal.readFloat := by
  unfold Literal.readFloat
  infer_instance

instance : Prompt Literal.readEnum := by
  unfold Literal.readEnum
  infer_instance

instance {ν : Type} (expected : Construct) (value : Reader ν) [Prompt value] :
    Prompt (NamedValue.read expected value) := by
  unfold NamedValue.read
  infer_instance

instance {α : Type} (opening close : Punctuator) (expected : Construct) (item : Reader α)
    [Prompt item] : Prompt (Bracketed.read opening close expected item) := by
  unfold Bracketed.read
  infer_instance

instance Value.prompt_readTo (constant : Bool) (depth : Nat) :
    Prompt (Value.readTo constant depth) := by
  induction depth with
  | zero => exact Prompt.fail _
  | succ depth ih =>
    refine @Prompt.bind _ _ _ _ inferInstance fun o => ?_
    unfold Value.readListOf Value.readObjectOf
    split <;> infer_instance

instance (constant : Bool) : Prompt (Value.read constant) :=
  .of_depths (Value.readTo_eq_read constant)

instance (constant : Bool) : Prompt (Argument.readAll constant) := by
  unfold Argument.readAll Argument.read
  infer_instance

instance : Prompt Value.readDefault? := by
  unfold Value.readDefault?
  infer_instance

instance (constant : Bool) : Prompt (Directive.read constant) := by
  unfold Directive.read
  infer_instance

instance (constant : Bool) : Prompt (Directive.readAll constant) := by
  unfold Directive.readAll
  infer_instance

instance (inner : Reader TypeRef) [Prompt inner] : Prompt (TypeRef.readUnmarked inner) := by
  refine @Prompt.bind _ _ _ _ inferInstance fun o => ?_
  split <;> infer_instance

instance TypeRef.prompt_readTo (depth : Nat) : Prompt (TypeRef.readTo depth) := by
  induction depth with
  | zero => exact Prompt.fail _
  | succ depth ih =>
    unfold TypeRef.readTo
    infer_instance

instance : Prompt TypeRef.read :=
  .of_depths TypeRef.readTo_eq_read

end Values

section Executable

variable {selection : Reader Selection} [Prompt selection]

instance : Prompt (SelectionSet.readBraced selection) := by
  unfold SelectionSet.readBraced
  infer_instance

instance : Prompt (SelectionSet.readOf selection) := by
  rw [SelectionSet.readOf_eq]
  infer_instance

instance (expected : Construct) : Prompt (SelectionSet.readBodyOf expected selection) := by
  rw [SelectionSet.readBodyOf_eq]
  infer_instance

instance : Prompt (Field.readOf selection) := by
  unfold Field.readOf
  infer_instance

instance : Prompt FragmentSpread.read := by
  unfold FragmentSpread.read
  infer_instance

instance : Prompt (InlineFragment.readOf selection) := by
  unfold InlineFragment.readOf
  infer_instance

instance : Prompt (Selection.readFragmentOf selection) := by
  refine @Prompt.located _ _ (@Prompt.bind _ _ _ _ inferInstance fun _ =>
    @Prompt.bind _ _ _ _ inferInstance fun o => ?_)
  split <;> infer_instance

omit [Prompt selection] in
instance Selection.prompt_readTo (depth : Nat) : Prompt (Selection.readTo depth) := by
  induction depth with
  | zero => exact Prompt.fail _
  | succ depth ih =>
    refine @Prompt.bind _ _ _ _ inferInstance fun o => ?_
    split <;> infer_instance

omit [Prompt selection] in
instance : Prompt Selection.read :=
  .of_depths Selection.readTo_eq_read

end Executable

section Operations

instance : Prompt OperationKind.read := by
  unfold OperationKind.read
  infer_instance

instance : Prompt VariableDefinition.read := by
  unfold VariableDefinition.read
  infer_instance

instance : Prompt VariableDefinition.readAll := by
  unfold VariableDefinition.readAll
  infer_instance

instance : Prompt OperationDefinition.readName? := by
  refine @Prompt.bind _ _ _ _ inferInstance fun o => ?_
  split <;> infer_instance

instance : Prompt OperationDefinition.readLong := by
  unfold OperationDefinition.readLong
  infer_instance

instance : Prompt SelectionSet.read := by
  unfold SelectionSet.read
  infer_instance

instance : Prompt OperationDefinition.readBraced := by
  unfold OperationDefinition.readBraced
  infer_instance

instance : Prompt OperationDefinition.read := by
  rw [OperationDefinition.read_eq]
  infer_instance

instance : Prompt FragmentDefinition.read := by
  unfold FragmentDefinition.read
  infer_instance

end Operations

section TypeSystem

instance : Prompt StringValue.readDescription? := by
  refine @Prompt.bind _ _ _ _ inferInstance fun o => ?_
  split <;> infer_instance

instance : Prompt InputValueDefinition.read := by
  unfold InputValueDefinition.read
  infer_instance

instance : Prompt InputValueDefinition.readArguments := by
  unfold InputValueDefinition.readArguments
  infer_instance

instance : Prompt InputValueDefinition.readFields := by
  unfold InputValueDefinition.readFields
  infer_instance

instance (constant : Bool) : Prompt (FieldDefinition.read constant) := by
  unfold FieldDefinition.read
  infer_instance

instance (constant : Bool) : Prompt (FieldDefinition.readAll constant) := by
  unfold FieldDefinition.readAll
  infer_instance

instance (constant : Bool) : Prompt (EnumValueDefinition.read constant) := by
  unfold EnumValueDefinition.read
  infer_instance

instance (constant : Bool) : Prompt (EnumValueDefinition.readAll constant) := by
  unfold EnumValueDefinition.readAll
  infer_instance

instance (introducer : Token) (separator : Punctuator) :
    Prompt (TypeName.readListBehind introducer separator) := by
  unfold TypeName.readListBehind
  infer_instance

instance : Prompt TypeName.readInterfaces := by
  unfold TypeName.readInterfaces
  infer_instance

instance : Prompt TypeName.readMembers := by
  unfold TypeName.readMembers
  infer_instance

instance (kind : TypeKind) : Prompt (TypeContent.readWithDirectives kind) := by
  unfold TypeContent.readWithDirectives
  cases kind <;> infer_instance

instance (kind : TypeKind) (description : Option StringValue) :
    Prompt (TypeDefinition.readBody kind description) := by
  unfold TypeDefinition.readBody
  infer_instance

instance : Prompt RootOperationType.read := by
  unfold RootOperationType.read
  infer_instance

instance : Prompt RootOperationType.readAll := by
  unfold RootOperationType.readAll
  infer_instance

instance (description : Option StringValue) : Prompt (SchemaDefinition.readParts description) := by
  unfold SchemaDefinition.readParts
  infer_instance

instance (description : Option StringValue) : Prompt (SchemaDefinition.readBody description) := by
  unfold SchemaDefinition.readBody
  infer_instance

instance : Prompt DirectiveLocation.read := by
  unfold DirectiveLocation.read
  infer_instance

instance : Prompt DirectiveLocation.readAll := by
  unfold DirectiveLocation.readAll
  infer_instance

instance (description : Option StringValue) :
    Prompt (DirectiveDefinition.readBody description) := by
  unfold DirectiveDefinition.readBody
  infer_instance

end TypeSystem

section Documents

instance : Prompt Definition.readTypeSystem := by
  refine @Prompt.located _ _ (@Prompt.bind _ _ _ _ inferInstance fun _ =>
    @Prompt.bind _ _ _ _ inferInstance fun part => ?_)
  cases part <;> infer_instance

instance : Prompt Definition.readExtension := by
  refine @Prompt.located _ _ (@Prompt.bind _ _ _ _ inferInstance fun _ =>
    @Prompt.bind _ _ _ _ inferInstance fun kind => ?_)
  cases kind <;> infer_instance

instance : Prompt Definition.read := by
  refine @Prompt.bind _ _ _ _ inferInstance fun o => ?_
  split <;> infer_instance

instance : Prompt Document.more where
  ok := by
    rintro x c b d ⟨⟩ hx
    rw [Document.more, Cursor.isComplete_exchange hx]
  error := by
    rintro x c f ⟨⟩

instance : Prompt Document.read := by
  unfold Document.read
  infer_instance

end Documents

instance (p : Production) : Prompt p.read := by
  cases p <;> dsimp only [Production.read, ListValue.read, ObjectValue.read, Value.readListOf,
    Value.readObjectOf, ObjectField.read, Argument.read, Field.read, InlineFragment.read,
    TypeDefinition.read, TypeDefinition.readOf, SchemaDefinition.read, DirectiveDefinition.read] <;>
    infer_instance

end GraphQLText
