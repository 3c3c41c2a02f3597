import GraphQLText.Proofs.Reading.Source
import GraphQLText.Proofs.Spans.Passes

/-!
# Nodes are what their spans cut out

The span of a node cuts a piece out of the source, from the beginning of a token to the end of one.
That piece, read by itself, is the node, with its spans moved to the beginning.
-/

namespace GraphQLText

set_option autoImplicit false

open Reader

namespace Cursor

variable {source : String} {c : Cursor}

/-- What has been read ends before what is ahead begins. -/
theorem Reaches.lastEnd_le (h : (atStart (TokenStream.ofText source)).Reaches c) :
    c.lastEnd ≤ c.nextSpan.start := by
  obtain ⟨ws, ht⟩ := h
  obtain ⟨ts, htokens, -, hending, hlast⟩ := ht.exists_tokens
  obtain ⟨-, hpairs⟩ := TokenStream.pairwise_spans 0 source.toList
  have hspans : (TokenStream.ofChars 0 source.toList).spans =
      ts.map PlacedToken.span ++ (c.tokens.map PlacedToken.span ++ [c.ending.span]) := by
    rw [TokenStream.spans, hending]
    change List.map _ (atStart (TokenStream.ofText source)).tokens ++ _ = _
    rw [htokens, List.map_append, List.append_assoc]
    rfl
  have hmem : c.nextSpan ∈ c.tokens.map PlacedToken.span ++ [c.ending.span] := by
    unfold nextSpan
    split <;> simp [*]
  rw [hspans, List.pairwise_append] at hpairs
  rw [hlast]
  cases hl : ts.getLast? with
  | none => exact Nat.zero_le _
  | some t =>
    have ht := List.mem_of_getLast? hl
    exact (hpairs.2.2 t.span (List.mem_map_of_mem ht) _ hmem).2

end Cursor

/-- The text is the piece of the source in the span, which begins where a token begins and ends where
one ends. Its tokens are those of the source between the two. -/
structure IsPiece (source text : String) (span : Span) : Prop where
  cut : ∃ before after, source = before ++ text ++ after ∧ before.utf8ByteSize = span.start ∧
    (before ++ text).utf8ByteSize = span.stop
  tokens : ∃ before mid after, (TokenStream.ofText source).tokens = before ++ mid ++ after ∧
    mid.head?.map PlacedToken.start = some span.start ∧
    mid.getLast?.map (fun t => t.span.stop) = some span.stop ∧
    mid = (TokenStream.ofText text).tokens.map (PlacedToken.moved span.start)

/-- Any stretch of the tokens of a source belongs to a piece of it, of which nothing is broken. -/
theorem exists_isPiece {source : String} {before mid after : List PlacedToken} (hne : mid ≠ [])
    (h : (TokenStream.ofText source).tokens = before ++ mid ++ after) :
    ∃ text span, IsPiece source text span ∧ (TokenStream.ofText text).isComplete = true ∧
      mid.head?.map PlacedToken.start = some span.start ∧
      mid.getLast?.map (fun t => t.span.stop) = some span.stop ∧
      mid = (TokenStream.ofText text).tokens.map (PlacedToken.moved span.start) := by
  obtain ⟨pre, text, post, ts, hsource, hrun, hmid⟩ := TokenStream.exists_slice hne h
  rw [Nat.zero_add] at hmid
  have htext : TokenStream.ofText (String.ofList text) = ⟨ts, .complete (Text.byteLength text)⟩ := by
    rw [TokenStream.ofText, String.toList_ofList]
    exact hrun.ofChars
  have hhead : mid.head?.map PlacedToken.start = some (Text.byteLength pre) := by
    obtain ⟨t, ht, hzero⟩ := Option.map_eq_some_iff.mp hrun.starts
    rw [hmid, List.head?_map, ht]
    simp [PlacedToken.moved, hzero]
  have hlast : mid.getLast?.map (fun t => t.span.stop) = some (Text.byteLength (pre ++ text)) := by
    obtain ⟨t, ht, hstop⟩ := Option.map_eq_some_iff.mp hrun.stops
    rw [hmid, List.getLast?_map, ht, Text.byteLength_append]
    simp [hstop, Nat.add_comm]
  have hmoved : mid = (TokenStream.ofText (String.ofList text)).tokens.map
      (PlacedToken.moved (Text.byteLength pre)) := by
    rw [hmid, htext]
  have hcut : source = String.ofList pre ++ String.ofList text ++ String.ofList post := by
    rw [← String.ofList_append, ← String.ofList_append, ← hsource, String.ofList_toList]
  refine ⟨String.ofList text, ⟨Text.byteLength pre, Text.byteLength (pre ++ text)⟩, ⟨?_, ?_⟩, ?_, hhead,
    hlast, hmoved⟩
  · refine ⟨_, _, hcut, (Text.byteLength_eq_utf8ByteSize pre).symm, ?_⟩
    rw [← String.ofList_append]
    exact (Text.byteLength_eq_utf8ByteSize (pre ++ text)).symm
  · exact ⟨before, mid, after, h, hhead, hlast, hmoved⟩
  · rw [TokenStream.isComplete, htext]

/-- The text says the node, whose spans are those in the text, moved as far as given. -/
def Part.SaidBy (x : Part) (text : String) (shift : Nat) : Prop :=
  ∃ n, x.production.parse text = .ok n ∧ x.production.same n x.node = true ∧
    x.production.moved shift n = x.production.moved 0 x.node

/-- What can be cut out is said by the text whose tokens were read, moved there. -/
theorem Part.Severed.saidBy {x : Part} {c d : Cursor} {text : String} {mid : List PlacedToken}
    {shift : Nat} (h : x.Severed c d) (hlast : c.lastEnd ≤ shift)
    (htext : (TokenStream.ofText text).isComplete = true) (hc : c.tokens = mid ++ d.tokens)
    (hmid : mid = (TokenStream.ofText text).tokens.map (PlacedToken.moved shift)) :
    x.SaidBy text shift := by
  obtain ⟨ws, -, ht, hends⟩ := h.takes
  have hkinds : ws.tokens = (TokenStream.ofText text).kinds := by
    have heq := ht.kinds.1
    rw [hc, List.map_append, List.append_cancel_right_eq, hmid, List.map_map] at heq
    exact heq.symm
  obtain ⟨d', ht', hd'⟩ := takes_of_kinds htext hkinds
  obtain ⟨n, _, hread, rfl, hbare⟩ := hends _ d' ht' hd'
  have hending := TokenStream.exists_ending htext
  -- The text overlaps with the source in just these tokens.
  let o : Overlap := ⟨shift, False, d.tokens, [], c.ending, (TokenStream.ofText text).ending,
    fun _ => ⟨rfl, hending⟩⟩
  have hmeets : o.Meets c (Cursor.atStart (TokenStream.ofText text)) := by
    refine ⟨⟨(TokenStream.ofText text).tokens, ?_, (List.append_nil _).symm⟩, rfl, rfl, ?_⟩
    · rw [hc, hmid]
    · simpa [o, Cursor.atStart] using hlast
  have hmoved := h.copies o _ n _ (fun hf => hf) hmeets hread (.inr ⟨fun hf => hf, rfl⟩)
  refine ⟨n, parse_eq_ok_iff.mpr ⟨n, _, hread, rfl, hd'⟩, ?_, hmoved.symm⟩
  rw [Production.same_iff, Production.shape, Production.shape, ← shape_bare, hbare, shape_bare]

/-- A node that was read somewhere in a source is the piece that its span cuts out. -/
theorem Part.ReadAt.exists_piece {source : String} {x : Part} {c d : Cursor}
    (hc : (Cursor.atStart (TokenStream.ofText source)).Reaches c) (h : x.ReadAt c d) :
    ∃ span text, x.span? = some span ∧ IsPiece source text span ∧ x.SaidBy text span.start := by
  obtain ⟨ws, hne, ht, -⟩ := h.severed.takes
  obtain ⟨us, hu⟩ := hc
  obtain ⟨before, hbefore, -, -, -⟩ := hu.exists_tokens
  obtain ⟨mid, hmid, hkinds, -, hlast⟩ := ht.exists_tokens
  have hmidne : mid ≠ [] := by
    rintro rfl
    exact hne (by simpa [Phrase.tokens] using hkinds.symm)
  have htokens : (TokenStream.ofText source).tokens = before ++ mid ++ d.tokens := by
    rw [List.append_assoc, ← hmid]
    exact hbefore
  obtain ⟨text, span, hpiece, hcomplete, hstart, hstop, hmoved⟩ := exists_isPiece hmidne htokens
  have hnext : c.nextSpan.start = span.start := by
    obtain ⟨t, rest, rfl⟩ := List.exists_cons_of_ne_nil hmidne
    rw [Cursor.nextSpan, hmid]
    exact Option.some.inj hstart
  have hend : d.lastEnd = span.stop := by
    rw [hlast, hstop]
    rfl
  have hle : span.start ≤ span.stop := by
    obtain ⟨left, right, -, hleft, hboth⟩ := hpiece.cut
    rw [← hleft, ← hboth, String.utf8ByteSize_append]
    exact Nat.le_add_right ..
  refine ⟨span, text, ?_, hpiece, h.severed.saidBy ?_ hcomplete hmid hmoved⟩
  · rw [h.span, hnext, hend, Nat.max_eq_left hle]
  · exact hnext ▸ Cursor.Reaches.lastEnd_le ⟨us, hu⟩

namespace Document

/-- The span of every node of a document cuts a piece out of the source, from the beginning of a
token to the end of one, and that piece, read by itself, is the node. -/
theorem exists_piece_of_mem_nodes {source : String} {d : Document} (h : parse source = .ok d)
    {x : Part} (hx : x ∈ d.nodes) :
    ∃ span text, x.span? = some span ∧ IsPiece source text span ∧ x.SaidBy text span.start := by
  obtain ⟨_, _, hread, rfl, -⟩ := parse_eq_ok_iff.mp h
  obtain ⟨c, e, hc, hat⟩ := (covers_read _ _ _ hread).parts x hx
  exact hat.exists_piece hc

def listQuery : Document where
  definitions := [.operation
    { kind := .query
      name := none
      variableDefinitions := []
      directives := []
      selections := ⟨[.field ⟨none, "a",
        [⟨"b", .list ⟨[.int ⟨"1", ⟨12, 13⟩⟩, .null], ⟨11, 19⟩⟩, ⟨8, 19⟩⟩], [], .absent,
        ⟨6, 20⟩⟩], ⟨4, 22⟩⟩
      span := ⟨4, 22⟩ }]
  sizeHint := 22
  span := ⟨4, 22⟩

def listPart : Part :=
  ⟨.listValue, ⟨[.int ⟨"1", ⟨12, 13⟩⟩, .null], ⟨11, 19⟩⟩⟩

theorem exists_piece_of_mem_nodes_listQuery :
    parse "#é\n{ a(b: [1 null]) }" = .ok listQuery ∧ listPart ∈ listQuery.nodes ∧
      ∃ span text, listPart.span? = some span ∧
        IsPiece "#é\n{ a(b: [1 null]) }" text span ∧ listPart.SaidBy text span.start := by
  have hread : parse "#é\n{ a(b: [1 null]) }" = .ok listQuery := by cbv
  have hmem : listPart ∈ listQuery.nodes :=
    .tail _ (.tail _ (.tail _ (.tail _ (.tail _ (.head _)))))
  exact ⟨hread, hmem, exists_piece_of_mem_nodes hread hmem⟩

end Document

end GraphQLText
