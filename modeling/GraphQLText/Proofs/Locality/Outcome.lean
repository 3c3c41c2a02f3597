import GraphQLText.Proofs.Lexing.Insert
import GraphQLText.Proofs.Locality.Unplaced
import GraphQLText.Proofs.RoundTrip.Document
import GraphQLText.Proofs.RoundTrip.Production

/-!
# The formatting of a source is irrelevant

What a source is read as is told from its tokens and from how they are spelled. So ignored text may
be put wherever a token begins or ends: the nodes say the same and are written in the same way, and
where there are none the report says the same.
-/

namespace GraphQLText

set_option autoImplicit false

open Reader

namespace TokenStream

/-- The tokens of the stream as the source spells them. -/
def texts (stream : TokenStream) : List String :=
  stream.tokens.map PlacedToken.text

theorem Opened.kinds {place shift : Nat} {stream stream' : TokenStream}
    (h : Opened place shift stream stream') : stream'.kinds = stream.kinds := by
  obtain ⟨us, vs, htokens, -, -, htokens'⟩ := h
  simp [TokenStream.kinds, htokens, htokens', Function.comp_def]

theorem Opened.texts {place shift : Nat} {stream stream' : TokenStream}
    (h : Opened place shift stream stream') : stream'.texts = stream.texts := by
  obtain ⟨us, vs, htokens, -, -, htokens'⟩ := h
  simp [TokenStream.texts, htokens, htokens', Function.comp_def, PlacedToken.moved]

/-- Where tokens are the same and nothing is broken, the blank streams are one. -/
theorem blank_atStart_eq {stream stream' : TokenStream} (hs : stream.isComplete = true)
    (hs' : stream'.isComplete = true) (hkinds : stream'.kinds = stream.kinds) :
    (Cursor.atStart stream').blank = (Cursor.atStart stream).blank := by
  obtain ⟨offset, hending⟩ := exists_ending hs
  obtain ⟨offset', hending'⟩ := exists_ending hs'
  have htokens := PlacedToken.map_blank_eq hkinds
  simp only [Cursor.atStart, Cursor.blank, htokens, hending, hending', Ending.blank]

end TokenStream

namespace Cursor

variable {c c' d d' : Cursor}

theorem Reaches.ending_eq (h : c.Reaches d) : d.ending = c.ending := by
  obtain ⟨ws, ht⟩ := h
  exact ht.kinds.2

/-- In streams that are spelled alike, so is what lies ahead of places as far from the end. -/
theorem Reaches.texts_eq (h : c.Reaches d) (h' : c'.Reaches d')
    (htexts : c'.tokens.map PlacedToken.text = c.tokens.map PlacedToken.text)
    (hlength : d'.tokens.length = d.tokens.length) :
    d'.tokens.map PlacedToken.text = d.tokens.map PlacedToken.text := by
  obtain ⟨ws, ht⟩ := h
  obtain ⟨ws', ht'⟩ := h'
  obtain ⟨ts, htokens, -⟩ := ht.exists_tokens
  obtain ⟨ts', htokens', -⟩ := ht'.exists_tokens
  rw [htokens, htokens', List.map_append, List.map_append] at htexts
  exact (List.append_inj' htexts (by simp [hlength])).2

end Cursor

/-- Failures at tokens that are spelled alike are reported alike. -/
theorem Failure.report_eq {f f' : Failure} {offset offset' : Nat}
    (hexpected : f'.expected = f.expected) (hending : f.place.ending = .complete offset)
    (hending' : f'.place.ending = .complete offset')
    (htexts : f'.place.tokens.map PlacedToken.text = f.place.tokens.map PlacedToken.text) :
    f'.kind = f.kind ∧ f'.message = f.message ∧ f'.lexeme? = f.lexeme? := by
  obtain ⟨expected, tokens, ending, lastEnd⟩ := f
  obtain ⟨expected', tokens', ending', lastEnd'⟩ := f'
  obtain rfl : expected' = expected := hexpected
  obtain rfl : ending = _ := hending
  obtain rfl : ending' = _ := hending'
  cases tokens with
  | nil =>
    obtain rfl : tokens' = [] := List.map_eq_nil_iff.mp htexts
    exact ⟨rfl, rfl, rfl⟩
  | cons t tokens =>
    obtain ⟨t', tokens', rfl, ht, -⟩ := List.map_eq_cons_iff.mp htexts
    simp only [kind, message, lexeme?, ht, and_self]

instance (p : Production) : Forward p.read := by
  cases p <;> dsimp only [Production.read, ListValue.read, ObjectValue.read, Value.readListOf,
    Value.readObjectOf, ObjectField.read, Argument.read, Field.read, InlineFragment.read,
    TypeDefinition.read, TypeDefinition.readOf, SchemaDefinition.read, DirectiveDefinition.read] <;>
    infer_instance

namespace Production

variable {p : Production}

/-- Both sources are read, as nodes that say the same and are written in the same way, or neither is,
and the reports say the same. -/
inductive SameOutcome (p : Production) :
    Except Diagnostic p.Node → Except Diagnostic p.Node → Prop
  | read {a b : p.Node} : p.same a b = true →
      (∀ write, p.layout? = some write → ∀ level, (write level a).render = (write level b).render) →
      SameOutcome p (.ok a) (.ok b)
  | refused {e f : Diagnostic} : e.kind = f.kind → e.message = f.message → e.lexeme = f.lexeme →
      SameOutcome p (.error e) (.error f)

/-- Nodes that are the same without their spans are written in the same way. -/
theorem layout_eq_of_bare_eq {write : Nat → p.Node → Layout} (hwrite : p.layout? = some write)
    {a b : p.Node} (h : bare a = bare b) (level : Nat) : write level a = write level b := by
  have hbare : ∀ n : p.Node, write level (bare n) = write level n := by
    intro n
    by_cases hp : p = .document
    · -- Not every document is read back from its text, so `readsBack` leaves them out.
      subst hp
      obtain rfl := Option.some.inj hwrite
      have h := Document.layout_reshape faithful_bare.blind level n
      rwa [List.map_id, List.map_id] at h
    · have h := (readsBack hp hwrite).layout_reshape faithful_bare.blind level n
      rwa [List.map_id, List.map_id] at h
  rw [← hbare a, ← hbare b, h]

/-- What a source without faults is read as is told from its tokens and their texts. -/
theorem sameOutcome_of_tokens {source source' : String}
    (hs : (TokenStream.ofText source).isComplete = true)
    (hs' : (TokenStream.ofText source').isComplete = true)
    (hkinds : (TokenStream.ofText source').kinds = (TokenStream.ofText source).kinds)
    (htexts : (TokenStream.ofText source').texts = (TokenStream.ofText source).texts) :
    p.SameOutcome (p.parse source) (p.parse source') := by
  have hblank := p.unplaced_read.whole (Cursor.atStart (TokenStream.ofText source))
  have hblank' := p.unplaced_read.whole (Cursor.atStart (TokenStream.ofText source'))
  rw [TokenStream.blank_atStart_eq hs hs' hkinds] at hblank'
  simp only [Production.parse, Reader.parse, run]
  -- Both outcomes are told from that of the one blank stream.
  cases hx : whole p.read (Cursor.atStart (TokenStream.ofText source)).blank with
  | ok x =>
    rw [hx] at hblank hblank'
    obtain ⟨a, _, ha, hxa, -⟩ := hblank.of_ok
    obtain ⟨b, _, hb, hxb, -⟩ := hblank'.of_ok
    have hab := hxa.symm.trans hxb
    rw [ha, hb]
    refine .read ((p.same_iff a b).mpr ?_) fun write hwrite level => ?_
    · exact ((shape_bare a).symm.trans (congrArg HasShape.shape hab)).trans (shape_bare b)
    · exact congrArg Layout.render (layout_eq_of_bare_eq hwrite hab level)
  | error e =>
    rw [hx] at hblank hblank'
    obtain ⟨f, hf, rfl⟩ := hblank.of_error
    obtain ⟨f', hf', hff'⟩ := hblank'.of_error
    obtain ⟨hexpected, hplace⟩ := Failure.mk.inj hff'
    rw [hf, hf']
    have hreaches := Forward.reaches_place _ f hf
    have hreaches' := Forward.reaches_place _ f' hf'
    obtain ⟨offset, hending⟩ := TokenStream.exists_ending hs
    obtain ⟨offset', hending'⟩ := TokenStream.exists_ending hs'
    -- As many tokens are left behind both failures, so they are at tokens that are spelled alike.
    have hlength : f'.place.tokens.length = f.place.tokens.length := by
      rw [← Cursor.length_tokens_blank f.place, hplace, Cursor.length_tokens_blank]
    obtain ⟨hkind, hmessage, hlexeme⟩ := Failure.report_eq hexpected.symm
      (hreaches.ending_eq.trans hending) (hreaches'.ending_eq.trans hending')
      (hreaches.texts_eq hreaches' htexts hlength)
    exact .refused hkind.symm hmessage.symm hlexeme.symm

/-- Ignored text that is put where a token begins or ends changes no token but where those behind it
stand, and no production tells the difference. -/
theorem insert_ignorable (p : Production) {left gap right : String} {t : PlacedToken}
    (hs : (TokenStream.ofText (left ++ right)).isComplete = true)
    (ht : t ∈ (TokenStream.ofText (left ++ right)).tokens)
    (hplace : left.utf8ByteSize = t.span.start ∨ left.utf8ByteSize = t.span.stop)
    (hgap : Ignored.IsIgnorable gap.toList) :
    TokenStream.Opened left.utf8ByteSize gap.utf8ByteSize (TokenStream.ofText (left ++ right))
        (TokenStream.ofText (left ++ gap ++ right)) ∧
      (TokenStream.ofText (left ++ gap ++ right)).isComplete = true ∧
      p.SameOutcome (p.parse (left ++ right)) (p.parse (left ++ gap ++ right)) := by
  obtain ⟨hopened, hcomplete⟩ := TokenStream.opened_of_insert ht hplace hgap
  have hs' := hcomplete.trans hs
  exact ⟨hopened, hs', sameOutcome_of_tokens hs hs' hopened.kinds hopened.texts⟩

/-- A comment behind a number. -/
theorem insert_ignorable_comment :
    (TokenStream.ofText ("scalar A @b(c:-1" ++ ")")).isComplete = true ∧
      ⟨.int "-1", "-1", 14⟩ ∈ (TokenStream.ofText ("scalar A @b(c:-1" ++ ")")).tokens ∧
      ("scalar A @b(c:-1".utf8ByteSize = 14 ∨ "scalar A @b(c:-1".utf8ByteSize = 16) ∧
      Ignored.IsIgnorable "#1\r,".toList ∧
      TokenStream.Opened 16 4 (TokenStream.ofText ("scalar A @b(c:-1" ++ ")"))
        (TokenStream.ofText ("scalar A @b(c:-1" ++ "#1\r," ++ ")")) ∧
      (TokenStream.ofText ("scalar A @b(c:-1" ++ "#1\r," ++ ")")).isComplete = true ∧
      document.SameOutcome (document.parse ("scalar A @b(c:-1" ++ ")"))
        (document.parse ("scalar A @b(c:-1" ++ "#1\r," ++ ")")) := by
  have hs : (TokenStream.ofText ("scalar A @b(c:-1" ++ ")")).isComplete = true := by cbv
  have htokens : (TokenStream.ofText ("scalar A @b(c:-1" ++ ")")).tokens[7]? =
      some ⟨.int "-1", "-1", 14⟩ := by cbv
  have ht := List.mem_of_getElem? htokens
  have hplace : "scalar A @b(c:-1".utf8ByteSize = 14 ∨ "scalar A @b(c:-1".utf8ByteSize = 16 := by
    decide
  have hgap : Ignored.IsIgnorable "#1\r,".toList := by
    have hbody : ∀ d ∈ ['1'], Ignored.isLineEnd d = false := List.forall_mem_singleton.mpr rfl
    have hend : Ignored.isLineEnd '\r' = true := by decide
    exact .comment hbody hend (.char (by decide) .nil)
  exact ⟨hs, ht, hplace, hgap, document.insert_ignorable hs ht hplace hgap⟩

end Production

end GraphQLText
