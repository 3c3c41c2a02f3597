import GraphQLText.Proofs.Locality.Depth
import GraphQLText.Proofs.Prefix.Document
import GraphQLText.Proofs.Reading.Source
import GraphQLText.Production

/-!
# Dispatch

Values, selections, types and definitions are told from the tokens ahead and then left to the
reader of what they are. Nothing is lost or added on the way: a source is read as a value that is a
list exactly if it is read as a list, a source is the definition of an enum exactly if it is a
definition that is a type that is an enum, and so on, with the same spans.
-/

namespace GraphQLText

set_option autoImplicit false

open Reader

namespace Reader

variable {α β : Type} {r : Reader α} {c d : Cursor} {a : α}

theorem ends_eq_iff : Ends r c (fun b e => b = a ∧ e = d) ↔ r c = .ok (a, d) := by
  constructor
  · rintro ⟨b, e, h, rfl, rfl⟩
    exact h
  · intro h
    exact ⟨a, d, h, rfl, rfl⟩

theorem map_of_ok {f : α → β} (h : r c = .ok (a, d)) : (f <$> r) c = .ok (f a, d) := by
  rw [← bind_pure_comp, bind_apply, h]
  rfl

/-- A reader that begins with a token has found it. -/
theorem next_of_expect {t : Token} {expected : Construct} {f : Unit → Reader α}
    (h : (expect t expected >>= f) c = .ok (a, d)) : c.next? = some t := by
  obtain ⟨u, e, he, -⟩ := bind_eq_ok.mp h
  exact always_expect (Q := fun _ _ => c.next? = some t).mpr id u e he

theorem next_of_nameToken {expected : Construct} {f : String → Reader α}
    (h : (nameToken expected >>= f) c = .ok (a, d)) : ∃ s, c.next? = some (.name s) := by
  obtain ⟨u, e, he, -⟩ := bind_eq_ok.mp h
  exact always_nameToken (Q := fun _ _ => ∃ s, c.next? = some (.name s)).mpr
    (fun s hn => ⟨s, hn⟩) u e he

/-- Two readers that agree on a node wherever nothing is left read the same sources as it. -/
theorem parse_iff_parse {p : Reader α} {q : Reader β} {b : β} {source : String}
    (h : ∀ d, d.isComplete = true →
      (q (Cursor.atStart (TokenStream.ofText source)) = .ok (b, d) ↔
        p (Cursor.atStart (TokenStream.ofText source)) = .ok (a, d))) :
    q.parse source = .ok b ↔ p.parse source = .ok a := by
  rw [parse_eq_ok_iff, parse_eq_ok_iff]
  constructor
  · rintro ⟨b, d, hr, rfl, hd⟩
    exact ⟨a, d, (h d hd).mp hr, rfl, hd⟩
  · rintro ⟨a, d, hr, rfl, hd⟩
    exact ⟨b, d, (h d hd).mpr hr, rfl, hd⟩

end Reader

theorem Bracketed.next_of_read {α : Type} {opening close : Punctuator} {expected : Construct}
    {item : Reader α} {b : Bracketed α} {c d : Cursor}
    (h : Bracketed.read opening close expected item c = .ok (b, d)) :
    c.next? = some (.punctuator opening) := by
  obtain ⟨f, hf, -⟩ := located_eq_ok.mp h
  exact next_of_expect hf

/-- A value is read exactly where the reader of what it is reads it. -/
theorem Value.read_eq_ok_iff {c d : Cursor} {v : Value} :
    read false c = .ok (v, d) ↔
      match v with
      | .variable n => Variable.read c = .ok (n, d)
      | .int n => Literal.readInt c = .ok (n, d)
      | .float n => Literal.readFloat c = .ok (n, d)
      | .string n => StringValue.read c = .ok (n, d)
      | .boolean n => BooleanValue.read c = .ok (n, d)
      | .null => c.next? = some (.name "null") ∧ d = c.advance
      | .enum n => Literal.readEnum c = .ok (n, d)
      | .list n => ListValue.read false c = .ok (n, d)
      | .object n => ObjectValue.read false c = .ok (n, d) := by
  constructor
  · intro h
    have has := always_read false c v d h
    cases v with
    | null =>
      obtain ⟨_, hg, ht⟩ := sound_read false c _ d h
      cases hg
      exact ⟨ht.1, has⟩
    | _ => exact has
  · intro h
    rw [read, nested, readTo, bind_apply, peek]
    cases v with
    | «variable» n =>
      obtain ⟨_, ⟨⟩, ht⟩ := Variable.sound_read c n d h
      rw [ht.1]
      exact map_of_ok h
    | int n =>
      obtain ⟨_, rfl, ht⟩ := Literal.sound_readInt c n d h
      rw [ht.1]
      exact map_of_ok h
    | float n =>
      obtain ⟨_, rfl, ht⟩ := Literal.sound_readFloat c n d h
      rw [ht.1]
      exact map_of_ok h
    | string n =>
      obtain ⟨_, hg, ht⟩ := StringValue.sound_read c n d h
      cases hg <;> rw [ht.1] <;> exact map_of_ok h
    | boolean n =>
      obtain ⟨_, ⟨⟩, ht⟩ := BooleanValue.sound_read c n d h
      rw [ht.1]
      cases n.value <;> exact map_of_ok h
    | null =>
      obtain ⟨hn, rfl⟩ := h
      rw [hn]
      rfl
    | enum n =>
      obtain ⟨_, ⟨henum, rfl⟩, ht⟩ := Literal.sound_readEnum c n d h
      have hmap : (enum <$> Literal.readEnum) c = .ok (enum n, d) := map_of_ok h
      rw [ht.1]
      dsimp only
      -- An enum value is a name, and none of the three that stand for other values.
      simp only [isEnumName, Bool.not_eq_true', Bool.or_eq_false_iff, beq_eq_false_iff_ne] at henum
      split <;> simp_all
    | list n =>
      rw [Bracketed.next_of_read h]
      rw [← ListValue.alikeBelow_read false c.tokens.length c (Nat.lt_succ_self _)] at h
      exact map_of_ok h
    | object n =>
      rw [Bracketed.next_of_read h]
      rw [← ObjectValue.alikeBelow_read false c.tokens.length c (Nat.lt_succ_self _)] at h
      exact map_of_ok h

/-- A type that turns out to be a name was read as one. -/
theorem TypeRef.always_read_named (c : Cursor) : Always read c fun t d =>
    ∀ n, t = .named n → TypeName.read c = .ok (n, d) := by
  have hunmarked : Always (readUnmarked (readTo c.tokens.length)) c fun t d =>
      ∀ n, t = .named n → TypeName.read c = .ok (n, d) := by
    rw [readUnmarked, always_bind, always_peek]
    split
    · simp only [always_bind, always_skip, always_expect, always_pure]
      exact fun _ _ _ _ _ h => absurd h (by simp)
    · refine always_map.mpr fun n d h _ hn => ?_
      cases hn
      exact h
    · exact always_fail
  rw [read, always_nested, readTo, always_bind]
  refine hunmarked.mono fun t e ht => ?_
  simp only [always_bind, always_eat, always_at?, always_ite, always_pure]
  refine ⟨fun _ => ⟨fun _ => ⟨fun _ => always_fail, fun _ n h => absurd h (by simp)⟩,
    fun h => absurd trivial h⟩, fun _ => ⟨fun h => absurd h (by simp), fun _ => ht⟩⟩

/-- At the end of the source, a type is a name exactly if it is read as one. -/
theorem TypeRef.read_named_iff {c d : Cursor} {n : TypeName} (hd : d.isComplete = true) :
    read c = .ok (.named n, d) ↔ TypeName.read c = .ok (n, d) := by
  constructor
  · exact fun h => always_read_named c _ d h n rfl
  · intro h
    obtain ⟨_, ⟨⟩, ht⟩ := TypeName.sound_read c n d h
    have hunmarked : readUnmarked (readTo c.tokens.length) c = .ok (.named n, d) := by
      rw [readUnmarked, bind_apply, peek, ht.1]
      exact map_of_ok h
    have hbang : d.next? ≠ some (.punctuator .bang) := by
      rw [Cursor.next?_of_isComplete hd]
      simp
    rw [read, nested, readTo, bind_apply, hunmarked]
    dsimp only
    rw [bind_apply, Selection.eat_of_ne hbang]
    rfl

section Fragments

variable {selection : Reader Selection} {c d : Cursor}

/-- A fragment spread is told from the name behind its ellipsis. -/
theorem Selection.readFragmentOf_of_spread {s : FragmentSpread}
    (hn : c.next? = some (.punctuator .ellipsis)) (h : FragmentSpread.read c = .ok (s, d)) :
    readFragmentOf selection c = .ok (.spread s, d) := by
  obtain ⟨name, hname, hon⟩ : ∃ name, c.advance.next? = some (.name name) ∧ name ≠ "on" := by
    obtain ⟨ws, hg, ht⟩ := FragmentSpread.sound_read (eat_of_next hn) s d h
    cases hg with
    | intro _ hon _ => exact ⟨_, ht.1, hon⟩
  obtain ⟨g, hg, rfl⟩ := (FragmentSpread.read_eq_ok_iff_advance hn (by simp [hname])).mp h
  rw [← ends_eq_iff]
  simp only [readFragmentOf, ends_located, ends_bind, ends_skip, ends_peek]
  rw [hname]
  -- The name does not begin a condition.
  split
  · next heq => simp at heq
  · next heq => simp at heq
  · next heq => simp_all
  · simp only [ends_bind, ends_pure]
    exact ⟨g, d, hg, rfl, rfl⟩
  · next heq => simp_all

/-- An inline fragment is told from the token behind its ellipsis, which is not a name. -/
theorem Selection.readFragmentOf_of_inline {G : Phrase → Selection → Prop} {f : InlineFragment}
    (hsound : Sound selection G) (hne : ∀ ws s, G ws s → ws ≠ [])
    (hn : c.next? = some (.punctuator .ellipsis))
    (h : InlineFragment.readOf selection c = .ok (f, d)) :
    readFragmentOf selection c = .ok (.inline f, d) := by
  have hnext : c.advance.next? = some (.punctuator .atSign) ∨
      c.advance.next? = some (.punctuator .openBrace) ∨ c.advance.next? = some (.name "on") := by
    obtain ⟨ws, hg, ht⟩ := InlineFragment.sound_readOf hsound hne (eat_of_next hn) f d h
    exact next_of_inline hg ht
  have hn' : c.advance.next? ≠ some (.punctuator .ellipsis) := by
    rcases hnext with h | h | h <;> simp [h]
  obtain ⟨g, hg, rfl⟩ := (InlineFragment.readOf_eq_ok_iff_advance hn hn').mp h
  rw [← ends_eq_iff]
  simp only [readFragmentOf, ends_located, ends_bind, ends_skip, ends_peek]
  rcases hnext with hnext | hnext | hnext <;> rw [hnext] <;> simp only [ends_bind, ends_pure] <;>
    exact ⟨g, d, hg, rfl, rfl⟩

end Fragments

/-- A selection is read exactly where the reader of what it is reads it, which is an ellipsis if it
is a fragment. -/
theorem Selection.read_eq_ok_iff {c d : Cursor} {s : Selection} :
    read c = .ok (s, d) ↔
      match s with
      | .field n => Field.read c = .ok (n, d)
      | .spread n =>
        c.next? = some (.punctuator .ellipsis) ∧ FragmentSpread.read c = .ok (n, d)
      | .inline n =>
        c.next? = some (.punctuator .ellipsis) ∧ InlineFragment.read c = .ok (n, d) := by
  have hselection : AlikeBelow c.tokens.length (readTo c.tokens.length) read :=
    fun e he => readTo_eq_read e _ he
  constructor
  · exact always_read c s d
  · intro h
    rw [read, nested, readTo, bind_apply, peek]
    cases s with
    | field n =>
      obtain ⟨f, hf, -⟩ := located_eq_ok.mp h
      obtain ⟨name, hn⟩ := next_of_nameToken hf
      rw [hn]
      refine map_of_ok ?_
      rw [Field.alikeBelow_readOf hselection c (Nat.lt_succ_self _)]
      exact h
    | spread n =>
      obtain ⟨hn, h⟩ := h
      rw [hn]
      exact readFragmentOf_of_spread hn h
    | «inline» n =>
      obtain ⟨hn, h⟩ := h
      rw [hn]
      refine readFragmentOf_of_inline (sound_readTo _) (fun _ _ => starts.ne_nil) hn ?_
      rw [InlineFragment.alikeBelow_readOf hselection c (Nat.lt_succ_self _)]
      exact h

/-- The node is read at one place, and behind it is another: behind an optional description stands
the keyword, and behind that what it introduces. -/
def Introduces {α : Type} (keyword : String) (body : Option StringValue → Reader (Span → α))
    (c : Cursor) (a : α) (d : Cursor) : Prop :=
  ∃ description e f, StringValue.readDescription? c = .ok (description, e) ∧
    e.next? = some (.name keyword) ∧ body description e.advance = .ok (f, d) ∧
      f ⟨c.nextSpan.start, max d.lastEnd c.nextSpan.start⟩ = a

section Introduced

variable {α κ : Type} {c d : Cursor} {a : α}

/-- A reader that tells from a keyword what to read introduces it by that keyword. -/
theorem introduces_of_token {expected : Construct} {accept : Token → Option κ}
    {keyword : κ → String} {body : κ → Option StringValue → Reader (Span → α)}
    (haccept : ∀ t k, accept t = some k ↔ t = .name (keyword k)) :
    located (do
        let description ← StringValue.readDescription?
        let k ← token expected accept
        body k description) c = .ok (a, d) ↔
      ∃ k, Introduces (keyword k) (body k) c a d := by
  have htoken : ∀ e k e', token expected accept e = .ok (k, e') ↔
      e.next? = some (.name (keyword k)) ∧ e' = e.advance := by
    intro e k e'
    rw [← ends_eq_iff, ends_token]
    simp only [haccept]
    constructor
    · rintro ⟨t, b, hn, rfl, rfl, rfl⟩
      exact ⟨hn, rfl⟩
    · rintro ⟨hn, rfl⟩
      exact ⟨_, _, hn, rfl, rfl, rfl⟩
  simp only [located_eq_ok, bind_eq_ok, htoken]
  constructor
  · rintro ⟨f, ⟨description, e, hdescription, k, _, ⟨hn, rfl⟩, hbody⟩, ha⟩
    exact ⟨k, description, e, f, hdescription, hn, hbody, ha⟩
  · rintro ⟨k, description, e, f, hdescription, hn, hbody, ha⟩
    exact ⟨f, ⟨description, e, hdescription, k, _, ⟨hn, rfl⟩, hbody⟩, ha⟩

theorem introduces_of_expect {expected : Construct} {keyword : String}
    {body : Option StringValue → Reader (Span → α)} :
    located (do
        let description ← StringValue.readDescription?
        expect (.name keyword) expected
        body description) c = .ok (a, d) ↔ Introduces keyword body c a d := by
  have haccept : ∀ (t : Token) (k : Unit),
      (if t = .name keyword then some () else none) = some k ↔ t = .name keyword := by
    simp
  exact (introduces_of_token haccept).trans (exists_const Unit)

/-- What is introduced may be wrapped afterwards. -/
theorem introduces_map {β : Type} {keyword : String} (wrap : α → β)
    {body : Option StringValue → Reader (Span → α)} {b : β} :
    Introduces keyword
        (fun description => do
          let f ← body description
          return fun span => wrap (f span)) c b d ↔
      ∃ a, Introduces keyword body c a d ∧ wrap a = b := by
  constructor
  · rintro ⟨description, e, g, hdescription, hn, hbody, rfl⟩
    obtain ⟨f, e', hf, ⟨⟩⟩ := bind_eq_ok.mp hbody
    exact ⟨_, ⟨description, e, f, hdescription, hn, hf, rfl⟩, rfl⟩
  · rintro ⟨_, ⟨description, e, f, hdescription, hn, hf, rfl⟩, rfl⟩
    exact ⟨description, e, _, hdescription, hn, bind_eq_ok.mpr ⟨f, d, hf, rfl⟩, rfl⟩

end Introduced

theorem SchemaDefinition.read_eq_ok_iff {c d : Cursor} {s : SchemaDefinition} :
    read c = .ok (s, d) ↔ Introduces "schema" readBody c s d :=
  introduces_of_expect

theorem DirectiveDefinition.read_eq_ok_iff {c d : Cursor} {s : DirectiveDefinition} :
    read c = .ok (s, d) ↔ Introduces "directive" readBody c s d :=
  introduces_of_expect

namespace TypeDefinition

variable {kind : TypeKind} {c d : Cursor} {t : TypeDefinition}

theorem readOf_eq_ok_iff :
    readOf kind c = .ok (t, d) ↔ Introduces kind.keyword (readBody kind) c t d :=
  introduces_of_expect

theorem read_eq_ok_iff :
    read c = .ok (t, d) ↔ ∃ kind : TypeKind, Introduces kind.keyword (readBody kind) c t d := by
  refine introduces_of_token fun t kind => ?_
  split
  · exact TypeKind.ofKeyword?_eq_some_iff.trans (by simp)
  · simp_all

/-- A type is of the kind that its keyword says. -/
theorem kind_of_introduces (h : Introduces kind.keyword (readBody kind) c t d) :
    t.kind = kind := by
  obtain ⟨description, e, f, -, -, hf, rfl⟩ := h
  have hkind : Always (readBody kind description) e.advance fun f _ => ∀ span,
      (f span).kind = kind := by
    simp only [readBody, always_bind, always_pure]
    refine fun name e₁ _ => (TypeContent.sound_readWithDirectives kind e₁).mono ?_
    exact fun p _ hp _ => hp.1
  exact hkind f d hf _

/-- The reader for one kind of types reads the types of that kind. -/
theorem readOf_eq_ok_iff_read :
    readOf kind c = .ok (t, d) ↔ read c = .ok (t, d) ∧ t.kind = kind := by
  rw [readOf_eq_ok_iff, read_eq_ok_iff]
  constructor
  · exact fun h => ⟨⟨kind, h⟩, kind_of_introduces h⟩
  · rintro ⟨⟨kind', h⟩, rfl⟩
    rwa [kind_of_introduces h]

end TypeDefinition

namespace Definition

variable {c d : Cursor} {x : Definition}

theorem readTypeSystem_eq_ok_iff :
    readTypeSystem c = .ok (x, d) ↔
      ∃ part : SchemaPart, Introduces part.keyword (part.readBody ·) c x d := by
  rw [readTypeSystem_eq]
  refine introduces_of_token fun t part => ?_
  split
  · exact SchemaPart.ofKeyword?_eq_some_iff.trans (by simp)
  · simp_all

/-- Whatever a keyword introduces is read as a definition of the type system. -/
theorem read_of_introduces (part : SchemaPart) (h : Introduces part.keyword (part.readBody ·) c x d) :
    read c = .ok (x, d) := by
  obtain ⟨description, e, f, hdescription, hn, -⟩ := id h
  obtain ⟨u, hu, htu⟩ := StringValue.sound_readDescription c description e hdescription
  have ht : c.Takes (u ++ [.name part.keyword]) e.advance := htu.append ⟨hn, rfl⟩
  rw [read_of_part part hu ht, readTypeSystem_eq_ok_iff]
  exact ⟨part, h⟩

/-- The definition is read at one place, and behind it is another, by the reader of what it is. -/
def IsRead (c d : Cursor) (x : Definition) : Prop :=
  match x with
  | .operation n => OperationDefinition.read c = .ok (n, d)
  | .fragment n => FragmentDefinition.read c = .ok (n, d)
  | .schema n => SchemaDefinition.read c = .ok (n, d)
  | .type n => TypeDefinition.read c = .ok (n, d)
  | .directive n => DirectiveDefinition.read c = .ok (n, d)
  | .schemaExtension _ | .typeExtension _ =>
    c.next? = some (.name "extend") ∧ readExtension c = .ok (x, d)

theorem always_readTypeSystem (c : Cursor) : Always readTypeSystem c fun x d => x.IsRead c d := by
  intro x d h
  obtain ⟨part, hpart⟩ := readTypeSystem_eq_ok_iff.mp h
  cases part with
  | schema =>
    obtain ⟨n, hn, rfl⟩ := (introduces_map schema).mp hpart
    exact SchemaDefinition.read_eq_ok_iff.mpr hn
  | directive =>
    obtain ⟨n, hn, rfl⟩ := (introduces_map directive).mp hpart
    exact DirectiveDefinition.read_eq_ok_iff.mpr hn
  | type kind =>
    obtain ⟨n, hn, rfl⟩ := (introduces_map type).mp hpart
    exact TypeDefinition.read_eq_ok_iff.mpr ⟨kind, hn⟩

theorem always_readExtension (c : Cursor) :
    Always readExtension c fun x _ => x.isExtension = true := by
  simp only [readExtension, always_located, always_bind, always_expect, always_token]
  intro _ t kind _ _
  cases kind with
  | none =>
    simp only [always_bind, always_ite, always_pure]
    exact fun f d _ => ⟨fun _ => always_fail, fun _ => rfl⟩
  | some kind =>
    simp only [always_bind, always_ite, always_pure]
    exact fun f d _ => ⟨fun _ => always_fail, fun _ => rfl⟩

/-- A definition is read exactly where the reader of what it is reads it. -/
theorem read_eq_ok_iff : read c = .ok (x, d) ↔ x.IsRead c d := by
  constructor
  · have hread : Always read c fun x d => x.IsRead c d := by
      rw [read, always_bind, always_peek]
      split
      · exact always_map.mpr fun n d h => h
      · exact always_readTypeSystem c
      · exact always_readTypeSystem c
      · exact always_map.mpr fun n d h => h
      · next hn =>
        intro x d h
        -- behind its keyword nothing but an extension is read
        have hextension := always_readExtension c x d h
        cases x with
        | schemaExtension n => exact ⟨hn, h⟩
        | typeExtension n => exact ⟨hn, h⟩
        | _ => exact absurd hextension (by simp [isExtension])
      · simp only [always_ite]
        exact ⟨fun _ => always_map.mpr fun n d h => h,
          fun _ => ⟨fun _ => always_readTypeSystem c, fun _ => always_fail⟩⟩
      · exact always_fail
    exact hread x d
  · intro h
    cases x with
    | operation n =>
      obtain ⟨ws, hg, ht⟩ := OperationDefinition.sound_read c n d h
      rw [read_of_operation hg ht]
      exact map_of_ok h
    | fragment n =>
      obtain ⟨f, hf, -⟩ := located_eq_ok.mp h
      rw [read, bind_apply, peek, next_of_expect hf]
      exact map_of_ok h
    | schema n =>
      have hpart := SchemaDefinition.read_eq_ok_iff.mp h
      exact read_of_introduces .schema ((introduces_map schema).mpr ⟨n, hpart, rfl⟩)
    | type n =>
      obtain ⟨kind, hpart⟩ := TypeDefinition.read_eq_ok_iff.mp h
      exact read_of_introduces (.type kind) ((introduces_map type).mpr ⟨n, hpart, rfl⟩)
    | directive n =>
      have hpart := DirectiveDefinition.read_eq_ok_iff.mp h
      exact read_of_introduces .directive
        ((introduces_map directive).mpr ⟨n, hpart, rfl⟩)
    | schemaExtension n =>
      rw [read, bind_apply, peek, h.1]
      exact h.2
    | typeExtension n =>
      rw [read, bind_apply, peek, h.1]
      exact h.2

end Definition

namespace Document

variable {c d : Cursor} {x : Definition}

/-- A definition behind which nothing is left is all that the loop reads. -/
theorem definitions_eq_single_iff :
    whileMore more Definition.read c = .ok ([x], d) ↔
      Definition.read c = .ok (x, d) ∧ d.isComplete = true := by
  constructor
  · intro h
    obtain ⟨-, hnil⟩ | ⟨c', a, e, hmore, ha, hrest⟩ := whileMore_eq_ok.mp h
    · exact absurd hnil (by simp)
    obtain ⟨-, rfl⟩ : (!c.isComplete) = true ∧ c = c' := by simpa [more] using hmore
    rw [if_pos (Consuming.length_lt c a e ha)] at hrest
    obtain ⟨bs, hbs, hx⟩ := hrest
    obtain ⟨rfl, rfl⟩ := List.cons.inj hx
    obtain ⟨hmore, -⟩ | ⟨_, _, _, _, _, hrest⟩ := whileMore_eq_ok.mp hbs
    · obtain ⟨hdone, rfl⟩ : e.isComplete = true ∧ e = d := by simpa [more] using hmore
      exact ⟨ha, hdone⟩
    · split at hrest
      · obtain ⟨_, _, hnil⟩ := hrest
        exact absurd hnil (by simp)
      · exact absurd hrest.1 (by simp)
  · rintro ⟨hx, hd⟩
    have hlt := Consuming.length_lt c x d hx
    have hc : c.isComplete = false := by
      cases hn : c.tokens with
      | nil => simp [hn] at hlt
      | cons t ts => simp [Cursor.isComplete, hn]
    refine whileMore_eq_ok.mpr (.inr ⟨c, x, d, by simp [more, hc], hx, ?_⟩)
    rw [if_pos hlt]
    exact ⟨[], whileMore_eq_ok.mpr (.inl ⟨by simp [more, hd], rfl⟩), rfl⟩

/-- A document has one definition exactly if all of it is read as that definition. -/
theorem exists_read_single_iff :
    (∃ a, read c = .ok (a, d) ∧ a.definitions = [x]) ↔
      Definition.read c = .ok (x, d) ∧ d.isComplete = true := by
  rw [← definitions_eq_single_iff]
  constructor
  · rintro ⟨a, h, ha⟩
    obtain ⟨f, hf, rfl⟩ := located_eq_ok.mp h
    obtain ⟨ds, e, hds, hf⟩ := bind_eq_ok.mp hf
    cases ds with
    | nil => cases hf
    | cons b bs =>
      obtain ⟨n, e', ⟨⟩, ⟨⟩⟩ := bind_eq_ok.mp hf
      have hsingle : b :: bs = [x] := ha
      rwa [hsingle] at hds
  · intro h
    have hread : Ends read c fun a e => a.definitions = [x] ∧ e = d := by
      simp only [read, ends_located, ends_bind_of_ok h]
      exact ⟨_, d, rfl, rfl, rfl⟩
    obtain ⟨a, _, ha, hsingle, rfl⟩ := hread
    exact ⟨a, ha, hsingle⟩

end Document

namespace Production

/-- One production leaves nodes of a form to another one, which reads them without the form. On
their own, fragments in selections may lack their ellipsis, so the source must begin with it. -/
inductive Delegates (source : String) : (q p : Production) → (p.Node → q.Node) → Prop
  | variable : Delegates source .value .variable .variable
  | int : Delegates source .value .intValue .int
  | float : Delegates source .value .floatValue .float
  | string : Delegates source .value .stringValue .string
  | boolean : Delegates source .value .booleanValue .boolean
  | enum : Delegates source .value .enumValue .enum
  | list : Delegates source .value .listValue .list
  | object : Delegates source .value .objectValue .object
  | typeName : Delegates source .type .typeName .named
  | field : Delegates source .selection .field .field
  | spread :
      (TokenStream.ofText source).kinds.head? = some (.punctuator .ellipsis) →
        Delegates source .selection .fragmentSpread .spread
  | inlineFragment :
      (TokenStream.ofText source).kinds.head? = some (.punctuator .ellipsis) →
        Delegates source .selection .inlineFragment .inline
  | operation : Delegates source .definition .operationDefinition .operation
  | fragment : Delegates source .definition .fragmentDefinition .fragment
  | schema : Delegates source .definition .schemaDefinition .schema
  | type : Delegates source .definition .typeDefinition .type
  | directive : Delegates source .definition .directiveDefinition .directive

theorem next_of_kinds {source : String} {t : Token}
    (h : (TokenStream.ofText source).kinds.head? = some t) :
    (Cursor.atStart (TokenStream.ofText source)).next? = some t := by
  rwa [TokenStream.kinds, List.head?_map] at h

theorem Delegates.parse_iff {source : String} {q p : Production} {wrap : p.Node → q.Node}
    (h : Delegates source q p wrap) (n : p.Node) :
    q.parse source = .ok (wrap n) ↔ p.parse source = .ok n := by
  refine parse_iff_parse fun d hd => ?_
  cases h with
  | typeName => exact TypeRef.read_named_iff hd
  | field => exact Selection.read_eq_ok_iff
  | spread hn => exact Selection.read_eq_ok_iff.trans (and_iff_right (next_of_kinds hn))
  | inlineFragment hn => exact Selection.read_eq_ok_iff.trans (and_iff_right (next_of_kinds hn))
  | operation | fragment | schema | type | directive => exact Definition.read_eq_ok_iff
  | _ => exact Value.read_eq_ok_iff

theorem parse_typeDefinitionOf_iff {source : String} {kind : TypeKind} {n : TypeDefinition} :
    (typeDefinitionOf kind).parse source = .ok n ↔
      Production.parse .typeDefinition source = .ok n ∧ n.kind = kind := by
  constructor
  · intro h
    obtain ⟨_, d, hread, rfl, hd⟩ := parse_eq_ok_iff.mp h
    obtain ⟨hn, hkind⟩ := TypeDefinition.readOf_eq_ok_iff_read.mp hread
    exact ⟨parse_eq_ok_iff.mpr ⟨_, d, hn, rfl, hd⟩, hkind⟩
  · rintro ⟨h, hkind⟩
    obtain ⟨_, d, hn, rfl, hd⟩ := parse_eq_ok_iff.mp h
    have hread := TypeDefinition.readOf_eq_ok_iff_read.mpr ⟨hn, hkind⟩
    exact parse_eq_ok_iff.mpr ⟨_, d, hread, rfl, hd⟩

theorem parse_definition_iff {source : String} {x : Definition} :
    Production.parse .definition source = .ok x ↔
      ∃ a, Production.parse .document source = .ok a ∧ a.definitions = [x] := by
  constructor
  · intro h
    obtain ⟨_, d, hx, rfl, hd⟩ := parse_eq_ok_iff.mp h
    obtain ⟨a, ha, hsingle⟩ := Document.exists_read_single_iff.mpr ⟨hx, hd⟩
    exact ⟨a, parse_eq_ok_iff.mpr ⟨a, d, ha, rfl, hd⟩, hsingle⟩
  · rintro ⟨a, ha, hsingle⟩
    obtain ⟨_, d, hread, rfl, -⟩ := parse_eq_ok_iff.mp ha
    obtain ⟨hx, hd⟩ := Document.exists_read_single_iff.mp ⟨_, hread, hsingle⟩
    exact parse_eq_ok_iff.mpr ⟨x, d, hx, rfl, hd⟩

/-- It does not matter through which production a source is read. A production that leaves a form
of nodes to another one reads the sources that the other one reads, as the same nodes with the same
spans; the definitions of one kind of types are the type definitions of that kind; and a source is
a definition exactly if it is the document with this one definition. -/
theorem dispatch_agrees (source : String) :
    (∀ (q p : Production) (wrap : p.Node → q.Node), Delegates source q p wrap →
      ∀ n : p.Node, q.parse source = .ok (wrap n) ↔ p.parse source = .ok n) ∧
    (∀ (kind : TypeKind) (n : TypeDefinition),
      (typeDefinitionOf kind).parse source = .ok n ↔
        Production.parse .typeDefinition source = .ok n ∧ n.kind = kind) ∧
    ∀ x : Definition,
      Production.parse .definition source = .ok x ↔
        ∃ a, Production.parse .document source = .ok a ∧ a.definitions = [x] := by
  have hforms : ∀ (q p : Production) (wrap : p.Node → q.Node), Delegates source q p wrap →
      ∀ n : p.Node, q.parse source = .ok (wrap n) ↔ p.parse source = .ok n := by
    intro q p wrap h n
    exact h.parse_iff n
  have hkinds : ∀ (kind : TypeKind) (n : TypeDefinition),
      (typeDefinitionOf kind).parse source = .ok n ↔
        Production.parse .typeDefinition source = .ok n ∧ n.kind = kind := by
    intro kind n
    exact parse_typeDefinitionOf_iff
  have hdocument : ∀ x : Definition, Production.parse .definition source = .ok x ↔
      ∃ a, Production.parse .document source = .ok a ∧ a.definitions = [x] := by
    intro x
    exact parse_definition_iff
  exact ⟨hforms, hkinds, hdocument⟩

/-- A spread that is read on its own is read as a selection, too. -/
theorem dispatch_agrees_spread :
    Production.parse .fragmentSpread "...a" = .ok ⟨⟨"a", ⟨3, 4⟩⟩, [], ⟨0, 4⟩⟩ ∧
      Production.parse .selection "...a" = .ok (.spread ⟨⟨"a", ⟨3, 4⟩⟩, [], ⟨0, 4⟩⟩) := by
  have hlead : (TokenStream.ofText "...a").kinds.head? = some (.punctuator .ellipsis) := by cbv
  have hspread :
      Production.parse .fragmentSpread "...a" = .ok ⟨⟨"a", ⟨3, 4⟩⟩, [], ⟨0, 4⟩⟩ := by cbv
  exact ⟨hspread, ((dispatch_agrees "...a").1 _ _ _ (.spread hlead) _).mpr hspread⟩

end Production

end GraphQLText
