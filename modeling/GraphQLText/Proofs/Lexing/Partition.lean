import GraphQLText.Proofs.Lexing.Broken

/-!
# Tokens and gaps make up the source

A source is cut, without overlap and with nothing left out, into tokens and gaps of ignored text, up
to its end or to the first place where no token can be read. Each token is what its text is on its
own.
-/

namespace GraphQLText

set_option autoImplicit false

namespace TokenStream

/-- Where the gaps lie in a text that begins at `offset`: before the first token, from the end of each
token to the next one, and up to the ending. -/
def gapsFrom (offset : Nat) (stream : TokenStream) : List Span :=
  List.zipWith Span.mk (offset :: stream.tokens.map fun t => t.span.stop)
    (stream.spans.map Span.start)

theorem gapsFrom_cons (offset : Nat) (t : PlacedToken) (stream : TokenStream) :
    (cons t stream).gapsFrom offset = ⟨offset, t.span.start⟩ :: stream.gapsFrom t.span.stop := rfl

theorem gapsFrom_nil (offset : Nat) (ending : Ending) :
    gapsFrom offset ⟨[], ending⟩ = [⟨offset, ending.span.start⟩] := rfl

/-- The span cuts a gap out of a text that begins at `offset`. -/
def IsGapOf (offset : Nat) (cs : List Char) (span : Span) : Prop :=
  ∃ before gap behind, cs = before ++ (gap ++ behind) ∧
    span = ⟨offset + Text.byteLength before, offset + Text.byteLength (before ++ gap)⟩ ∧
    Ignored.Fills gap behind

theorem IsGapOf.first (offset : Nat) {gap behind : List Char} (h : Ignored.Fills gap behind) :
    IsGapOf offset (gap ++ behind) ⟨offset, offset + Text.byteLength gap⟩ :=
  ⟨[], gap, behind, rfl, rfl, h⟩

theorem IsGapOf.behind {offset : Nat} (before : List Char) {cs : List Char} {span : Span}
    (h : IsGapOf (offset + Text.byteLength before) cs span) :
    IsGapOf offset (before ++ cs) span := by
  obtain ⟨more, gap, behind, rfl, rfl, hfills⟩ := h
  refine ⟨before ++ more, gap, behind, (List.append_assoc ..).symm, ?_, hfills⟩
  simp only [Text.byteLength_append, Nat.add_assoc]

/-- Nothing but gaps lies before, between and behind the tokens of a text. -/
theorem isGapOf_of_mem_gapsFrom {offset : Nat} {cs : List Char} {span : Span}
    (h : span ∈ (ofChars offset cs).gapsFrom offset) : IsGapOf offset cs span := by
  induction offset, cs using stepwise with
  | ended offset gap hfills hend =>
    rw [ofChars_ended offset hend, gapsFrom_nil, List.mem_singleton] at h
    have hfirst := IsGapOf.first offset hfills
    rw [List.append_nil] at hfirst
    exact h ▸ hfirst
  | token offset gap c text rest t hstep hs ih =>
    rw [ofChars_token offset hstep hs, gapsFrom_cons] at h
    rcases List.mem_cons.mp h with hspan | h
    · exact hspan ▸ IsGapOf.first offset hstep.fills
    · have hstop : (⟨t, String.ofList (c :: text), offset + Text.byteLength gap⟩ : PlacedToken).span.stop =
          offset + Text.byteLength gap + Text.byteLength (c :: text) := by
        rw [PlacedToken.span, String.toList_ofList]
      rw [hstop] at h
      exact (ih h).behind (c :: text) |>.behind gap
  | broken offset gap c text rest fault lexeme hstep hs _ =>
    rw [ofChars_broken offset hstep hs, gapsFrom_nil, List.mem_singleton] at h
    exact h ▸ IsGapOf.first offset hstep.fills

/-- A token stands in the source where its span says, and its text on its own is just the token. -/
theorem exists_located_of_mem {cs : List Char} {t : PlacedToken} (h : t ∈ (ofChars 0 cs).tokens) :
    (∃ before text after, cs = before ++ (text ++ after) ∧ text ≠ [] ∧ t.text = String.ofList text ∧
      t.span = ⟨Text.byteLength before, Text.byteLength (before ++ text)⟩) ∧
    ofText t.text = ⟨[⟨t.token, t.text, 0⟩], .complete t.text.utf8ByteSize⟩ := by
  obtain ⟨before, after, htokens⟩ := List.append_of_mem h
  obtain ⟨blank, text, rest, hcs, -, hspells, ht, hspan⟩ := exists_of_tokens_eq_append htokens
  have htext : t.text = String.ofList text := by rw [ht]
  have hne := ne_nil_of_spells hspells
  refine ⟨⟨blank, text, rest, hcs, hne, htext, hspan⟩, ?_⟩
  rw [htext, ofText, String.toList_ofList, (run_of_spells hspells hne).ofChars,
    Text.byteLength_eq_utf8ByteSize]

/-- A source that is cut into characters is cut into texts with the same bounds. -/
theorem eq_append_of_toList {source : String} {before mid after : List Char} {span : Span}
    (hsource : source.toList = before ++ (mid ++ after))
    (hspan : span = ⟨Text.byteLength before, Text.byteLength (before ++ mid)⟩) :
    source = String.ofList before ++ String.ofList mid ++ String.ofList after ∧
      (String.ofList before).utf8ByteSize = span.start ∧
      (String.ofList before ++ String.ofList mid).utf8ByteSize = span.stop := by
  subst hspan
  rw [← String.ofList_append, ← String.ofList_append, List.append_assoc, ← hsource,
    String.ofList_toList, ← Text.byteLength_eq_utf8ByteSize, ← Text.byteLength_eq_utf8ByteSize]
  exact ⟨rfl, rfl, rfl⟩

/-- The tokens of a source stand in it one behind the other, none of them empty, with nothing but gaps
of ignored text before, between and behind them. The text of each token is that token alone. -/
theorem ofText_partition (source : String) :
    (∀ t ∈ (ofText source).tokens, t.span.start < t.span.stop ∧
      (∃ before after, source = before ++ t.text ++ after ∧ before.utf8ByteSize = t.span.start ∧
        (before ++ t.text).utf8ByteSize = t.span.stop) ∧
      ofText t.text = ⟨[⟨t.token, t.text, 0⟩], .complete t.text.utf8ByteSize⟩) ∧
    (ofText source).tokens.Pairwise (fun t u => t.span.stop ≤ u.span.start) ∧
    (∀ span ∈ (ofText source).gapsFrom 0, ∃ before gap behind, source = before ++ gap ++ behind ∧
      before.utf8ByteSize = span.start ∧ (before ++ gap).utf8ByteSize = span.stop ∧
      Ignored.Fills gap.toList behind.toList) ∧
    ∀ stop, (ofText source).ending = .complete stop → stop = source.utf8ByteSize := by
  refine ⟨?_, ?_, ?_, ?_⟩
  · intro t ht
    obtain ⟨⟨before, text, after, hsource, hne, htext, hspan⟩, halone⟩ := exists_located_of_mem ht
    refine ⟨?_, ⟨String.ofList before, String.ofList after, ?_⟩, halone⟩
    · have hpos := Text.byteLength_pos hne
      rw [hspan]
      simp only [Text.byteLength_append]
      omega
    · rw [htext]
      exact eq_append_of_toList hsource hspan
  · have hpairs := (pairwise_spans 0 source.toList).2
    rw [spans, List.pairwise_append, List.pairwise_map] at hpairs
    exact hpairs.1.imp fun hspan => hspan.2
  · intro span hspan
    obtain ⟨before, gap, behind, hsource, hat, hfills⟩ := isGapOf_of_mem_gapsFrom hspan
    simp only [Nat.zero_add] at hat
    obtain ⟨heq, hstart, hstop⟩ := eq_append_of_toList hsource hat
    refine ⟨_, _, _, heq, hstart, hstop, ?_⟩
    rwa [String.toList_ofList, String.toList_ofList]
  · intro stop hstop
    have hending := ending_ofChars 0 source.toList
    rw [ofText] at hstop
    rw [hstop] at hending
    rw [hending.1, Nat.zero_add, Text.byteLength_toList]

example : (ofText "é #b\n,c").ending = .broken .unexpectedCharacter "é" "é" 0 ∧
    (ofText "a #b\n,c #").gapsFrom 0 = [⟨0, 0⟩, ⟨1, 6⟩, ⟨7, 9⟩] := by
  decide +kernel

end TokenStream

end GraphQLText
