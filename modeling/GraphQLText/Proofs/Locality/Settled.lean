import GraphQLText.Proofs.Lexing.Insert
import GraphQLText.Proofs.Locality.Prompt
import GraphQLText.Proofs.Reading.Source

/-!
# An error is settled by the text up to it

Where a source is turned down for one of its tokens, all sources that begin in the same way, up to
the end of that token, are turned down for it, with the same report. No token and no fault behind it
has a part in this, nor does the end of the source.
-/

namespace GraphQLText

set_option autoImplicit false

open Reader

namespace TokenStream

/-- Two sources that have the same text up to the end of a token, and both have one just there, have
the same tokens up to that one. -/
theorem exists_tokens_of_beginning {left right other : String} {before after : List PlacedToken}
    {t u : PlacedToken} (h : (ofText (left ++ right)).tokens = before ++ t :: after)
    (hleft : left.utf8ByteSize = t.span.stop) (hu : u ∈ (ofText (left ++ other)).tokens)
    (hspan : u.span = t.span) :
    (∃ blank text, left.toList = blank ++ text ∧ Text.byteLength blank = t.span.start) ∧
      ∃ after', (ofText (left ++ other)).tokens = before ++ t :: after' := by
  rw [← Text.byteLength_toList] at hleft
  simp only [ofText, String.toList_append] at h hu ⊢
  generalize left.toList = left, right.toList = right, other.toList = other at h hleft hu ⊢
  obtain ⟨blank, text, rest, hsource, hcut, hspells, ht, hspant⟩ := exists_of_tokens_eq_append h
  rw [hspant] at hleft hspan ⊢
  rw [← List.append_assoc] at hsource
  obtain ⟨rfl, rfl⟩ := Text.append_inj_of_byteLength hsource hleft
  refine ⟨⟨blank, text, rfl, rfl⟩, ?_⟩
  -- up to the token nothing is changed by what stands behind it
  have hne := ne_nil_of_spells hspells
  have halike : Scan.Alike (text ++ right) (text ++ other) := by
    obtain ⟨d, more, rfl⟩ := List.exists_cons_of_ne_nil hne
    exact fun e he => .inl he
  rw [List.append_assoc, hcut.reads (text ++ other) halike, prepend] at hu ⊢
  rcases List.mem_append.mp hu with hbefore | hbehind
  · have hle := hcut.stop_le u hbefore
    have hpos := Text.byteLength_pos hne
    simp only [hspan, Text.byteLength_append] at hle
    omega
  · obtain ⟨text', rest', more, heq, hspells', hu', htokens⟩ :=
      exists_of_mem_of_start hbehind (by rw [hspan])
    have hlen : Text.byteLength text = Text.byteLength text' := by
      rw [hu', PlacedToken.span, String.toList_ofList, Text.byteLength_append] at hspan
      exact (Nat.add_left_cancel (congrArg Span.stop hspan)).symm
    obtain ⟨rfl, rfl⟩ := Text.append_inj_of_byteLength heq hlen
    have htoken : u = t := by rw [hu', ht, token_eq_of_spells hspells' hspells]
    exact ⟨more, by rw [htokens, htoken]⟩

end TokenStream

namespace Reader

variable {α : Type} {r : Reader α}

theorem run_eq_error {stream : TokenStream} {f : Failure} :
    r.run stream = .error f ↔ whole r (Cursor.atStart stream) = .error f := by
  unfold run
  cases whole r (Cursor.atStart stream) <;> simp

theorem parse_eq_error {source : String} {e : Diagnostic} :
    r.parse source = .error e ↔
      ∃ f, r.run (TokenStream.ofText source) = .error f ∧ f.diagnostic source = e := by
  unfold Reader.parse
  cases r.run (TokenStream.ofText source) <;> simp

/-- Reading fails at one of the tokens of the stream, or behind the last one. -/
theorem exists_tokens_of_run [Forward r] {stream : TokenStream} {f : Failure}
    (h : r.run stream = .error f) :
    (∃ before, stream.tokens = before ++ f.place.tokens) ∧ f.place.ending = stream.ending := by
  obtain ⟨ws, ht⟩ := Forward.reaches_place _ f (run_eq_error.mp h)
  obtain ⟨before, htokens, -, hending, -⟩ := ht.exists_tokens
  exact ⟨⟨before, htokens⟩, hending⟩

/-- What has been read of a source stands before the place where reading fails. -/
theorem start_lt_of_run [Forward r] {source : String} {f : Failure} {before : List PlacedToken}
    (h : r.run (TokenStream.ofText source) = .error f)
    (htokens : (TokenStream.ofText source).tokens = before ++ f.place.tokens) :
    ∀ t ∈ before, t.span.start < f.place.nextSpan.start := by
  intro t ht
  have hending := (exists_tokens_of_run h).2
  have hpairs : (TokenStream.ofText source).spans.Pairwise _ :=
    (TokenStream.pairwise_spans 0 source.toList).2
  rw [TokenStream.spans, htokens, List.map_append, List.append_assoc] at hpairs
  refine ((List.pairwise_append.mp hpairs).2.2 t.span (List.mem_map_of_mem ht) _ ?_).1
  cases hplace : f.place.tokens with
  | nil => simp [Cursor.nextSpan, hplace, hending]
  | cons u after => simp [Cursor.nextSpan, hplace]

/-- Where reading fails at the beginning of a token, it fails at that token. -/
theorem exists_before_of_start [Forward r] {source : String} {f : Failure} {t : PlacedToken}
    (h : r.run (TokenStream.ofText source) = .error f)
    (ht : t ∈ (TokenStream.ofText source).tokens)
    (hstart : f.place.nextSpan.start = t.span.start) :
    ∃ before after, f.place.tokens = t :: after ∧
      (TokenStream.ofText source).tokens = before ++ t :: after := by
  obtain ⟨⟨before, htokens⟩, -⟩ := exists_tokens_of_run h
  have hlt := start_lt_of_run h htokens
  have hmem : t ∈ f.place.tokens := by
    rw [htokens] at ht
    rcases List.mem_append.mp ht with hbefore | hahead
    · have := hlt t hbefore
      omega
    · exact hahead
  cases hplace : f.place.tokens with
  | nil =>
    rw [hplace] at hmem
    cases hmem
  | cons v after =>
    rw [hplace] at hmem htokens
    rcases List.mem_cons.mp hmem with rfl | hlater
    · exact ⟨before, after, rfl, htokens⟩
    · -- a token behind the first one begins later
      have hpairs := (List.pairwise_append.mp (TokenStream.pairwise_spans 0 source.toList).2).1
      rw [← TokenStream.ofText, htokens, List.map_append, List.map_cons] at hpairs
      have hbehind := (List.pairwise_append.mp hpairs).2.1
      have hvt := (List.pairwise_cons.mp hbehind).1 t.span (List.mem_map_of_mem hlater)
      simp only [Cursor.nextSpan, hplace] at hstart
      omega

/-- A reader that fails at a token fails at it in all streams that are the same so far. -/
theorem run_eq_error_of_before [Prompt r] {before after : List PlacedToken} {t : PlacedToken}
    {stream : TokenStream} {f : Failure} (h : r.run stream = .error f)
    (hstream : stream.tokens = before ++ t :: after) (hplace : f.place.tokens = t :: after)
    {stream' : TokenStream} {after' : List PlacedToken}
    (hstream' : stream'.tokens = before ++ t :: after') :
    ∃ f', r.run stream' = .error f' ∧ f'.expected = f.expected ∧
      f'.place.tokens = t :: after' := by
  obtain ⟨tokens', ending'⟩ := stream'
  obtain rfl : tokens' = _ := hstream'
  let x : Exchange := ⟨after.length, after', ending'⟩
  have hlater : x.count < f.place.tokens.length := by simp [x, hplace]
  have hexchanged := Prompt.error x _ f (run_eq_error.mp h) hlater
  have hstart : (Cursor.atStart stream).exchange x =
      Cursor.atStart ⟨before ++ t :: after', ending'⟩ := by
    have hsplit : before ++ t :: after = (before ++ [t]) ++ after := by simp
    simp only [Cursor.exchange, Cursor.atStart, hstream, x, hsplit]
    rw [List.length_append, Nat.add_sub_cancel, List.take_left, List.append_assoc,
      List.singleton_append]
  rw [hstart] at hexchanged
  refine ⟨_, run_eq_error.mpr hexchanged, rfl, ?_⟩
  simp [Failure.exchange, Cursor.exchange, hplace, x]

end Reader

/-- A report of a failure at a token is told from the token and from what was expected. -/
theorem Failure.report_of_token {f f' : Failure} {t : PlacedToken} {after after' : List PlacedToken}
    (hexpected : f'.expected = f.expected) (hplace : f.place.tokens = t :: after)
    (hplace' : f'.place.tokens = t :: after') :
    f'.kind = f.kind ∧ f'.message = f.message ∧ f'.lexeme? = f.lexeme? ∧
      f'.place.nextSpan = f.place.nextSpan := by
  simp only [kind, message, lexeme?, Cursor.nextSpan, hplace, hplace', hexpected, and_self]

theorem Location.ofOffset_append (before rest rest' : List Char) :
    ofOffset (before ++ rest) (Text.byteLength before) =
      ofOffset (before ++ rest') (Text.byteLength before) := by
  simp only [ofOffset, Text.takeBytes_byteLength_append]

/-- Where a source is turned down for one of its tokens, so is every source that begins in the same
way, up to the end of that token, and has a token there. -/
theorem Production.parse_eq_error_of_beginning {p : Production} {left right other : String}
    {e : Diagnostic} {t u : PlacedToken} (h : p.parse (left ++ right) = .error e)
    (ht : t ∈ (TokenStream.ofText (left ++ right)).tokens)
    (hlocation : e.location = some (Location.ofOffset (left ++ right).toList t.span.start))
    (hleft : left.utf8ByteSize = t.span.stop)
    (hu : u ∈ (TokenStream.ofText (left ++ other)).tokens) (hspan : u.span = t.span) :
    ∃ e', p.parse (left ++ other) = .error e' ∧ e'.kind = e.kind ∧ e'.message = e.message ∧
      e'.lexeme = e.lexeme ∧ e'.location = e.location := by
  obtain ⟨f, hf, rfl⟩ := parse_eq_error.mp h
  have hstart : f.place.nextSpan.start = t.span.start :=
    congrArg Location.offset (Option.some.inj hlocation)
  obtain ⟨before, after, hplace, htokens⟩ := exists_before_of_start hf ht hstart
  obtain ⟨⟨blank, text, hblank, hlength⟩, after', htokens'⟩ :=
    TokenStream.exists_tokens_of_beginning htokens hleft hu hspan
  obtain ⟨f', hf', hexpected, hplace'⟩ := run_eq_error_of_before hf htokens hplace htokens'
  obtain ⟨hkind, hmessage, hlexeme, hnext⟩ := Failure.report_of_token hexpected hplace hplace'
  refine ⟨_, parse_eq_error.mpr ⟨f', hf', rfl⟩, hkind, hmessage, hlexeme, ?_⟩
  simp only [Failure.diagnostic, hnext, hstart, String.toList_append, hblank, ← hlength,
    List.append_assoc]
  rw [Location.ofOffset_append]

/-- A list that is closed in the wrong way, before the right bracket and before a string that does not
end. -/
theorem Production.parse_eq_error_of_beginning_listType :
    ∃ e, Production.parse .type ("[A)" ++ "]") = .error e ∧
      ∃ e', Production.parse .type ("[A)" ++ " \"b") = .error e' ∧ e'.kind = e.kind ∧
        e'.message = e.message ∧ e'.lexeme = e.lexeme ∧ e'.location = e.location := by
  have hread : Production.parse .type ("[A)" ++ "]") =
      .error ⟨.grammatical, "Expected List Type, found \")\"", some ")", some ⟨2, 1, 3⟩,
        some " 1 | [A)]\n   |   ^"⟩ := by decide +kernel
  have ht : (TokenStream.ofText ("[A)" ++ "]")).tokens[2]? =
      some ⟨.punctuator .closeParen, ")", 2⟩ := by decide +kernel
  have hu : (TokenStream.ofText ("[A)" ++ " \"b")).tokens[2]? =
      some ⟨.punctuator .closeParen, ")", 2⟩ := by decide +kernel
  exact ⟨_, hread, parse_eq_error_of_beginning hread (List.mem_of_getElem? ht)
    (by decide +kernel) (by decide +kernel) (List.mem_of_getElem? hu) rfl⟩

end GraphQLText
