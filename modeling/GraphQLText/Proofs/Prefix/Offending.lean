import GraphQLText.Proofs.Lexing.Insert
import GraphQLText.Proofs.Locality.Copies
import GraphQLText.Proofs.Locality.Unplaced
import GraphQLText.Proofs.Prefix.Document
import GraphQLText.Proofs.Reading.Source

/-!
# Reading fails at the first token that cannot be where it is

Where a document cannot be read, the report points to a token. What stands before it goes on to a
document, and what goes on from there with that very token does not. The same holds where no token
can be read, and at the end of the source.
-/

namespace GraphQLText

set_option autoImplicit false

open Reader

inductive Item
  | token (t : Token)
  | broken
  | ended
deriving DecidableEq

namespace TokenStream

/-- The tokens of the stream and what stands behind them. -/
def items (stream : TokenStream) : List Item :=
  stream.kinds.map Item.token ++ [if stream.isComplete then .ended else .broken]

/-- Items that are tokens are found among the tokens. -/
theorem prefix_kinds_of_items {stream : TokenStream} {ts : List Token}
    (h : ts.map Item.token <+: stream.items) : ts <+: stream.kinds := by
  rw [items] at h
  generalize stream.kinds = kinds at h ⊢
  induction ts generalizing kinds with
  | nil => exact List.nil_prefix
  | cons t ts ih =>
    cases kinds with
    | nil =>
      have hitem := (List.cons_prefix_cons.mp h).1
      split at hitem <;> cases hitem
    | cons k kinds =>
      obtain ⟨hitem, hrest⟩ := List.cons_prefix_cons.mp h
      obtain rfl := Item.token.inj hitem
      exact List.cons_prefix_cons.mpr ⟨rfl, ih kinds hrest⟩

/-- What stands behind the tokens is found behind the same tokens only. -/
theorem eq_of_items_prefix {stream stream' : TokenStream} (h : stream.items <+: stream'.items) :
    stream.kinds = stream'.kinds ∧ stream.isComplete = stream'.isComplete := by
  have hitem : ∀ b : Bool, ∀ t, (if b then Item.ended else .broken) ≠ .token t := by simp
  obtain ⟨more, hmore⟩ := h
  rw [items, items] at hmore
  rcases List.eq_nil_or_concat more with rfl | ⟨more, x, rfl⟩
  · rw [List.append_nil] at hmore
    obtain ⟨hkinds, hlast⟩ := List.append_inj' hmore rfl
    refine ⟨List.map_injective_iff.mpr (fun _ _ => Item.token.inj) hkinds, ?_⟩
    cases hs : stream.isComplete <;> cases hs' : stream'.isComplete <;> simp_all
  · rw [List.concat_eq_append, ← List.append_assoc] at hmore
    have htokens := (List.append_inj' hmore rfl).1
    have hmem : (if stream.isComplete then Item.ended else .broken) ∈
        stream'.kinds.map Item.token := by simp [← htokens]
    obtain ⟨t, -, ht⟩ := List.mem_map.mp hmem
    exact absurd ht.symm (hitem _ t)

/-- Fillers are the tokens of some text. -/
theorem exists_source_of_fillers {ts : List Token} (h : ∀ t ∈ ts, t.IsFiller) :
    ∃ source, (ofText source).kinds = ts ∧ (ofText source).isComplete = true := by
  induction ts with
  | nil => exact ⟨"", by cbv, by cbv⟩
  | cons t ts ih =>
    obtain ⟨source, hkinds, hcomplete⟩ := ih fun x hx => h x (List.mem_cons_of_mem t hx)
    have ht : t.IsFiller := h t (List.mem_cons_self ..)
    have hclean : Layout.Clean [.word t] := by
      apply Layout.clean_word
      rintro v rfl
      exact ht
    have hwell : t.WellFormed := by
      cases t with
      | punctuator p => trivial
      | name s => exact ht
      | _ => exact ht.elim
    obtain ⟨hword, hends⟩ := hclean.ofText (by simpa [Layout.tokens, Piece.token?] using hwell)
    obtain ⟨hkinds', hcomplete'⟩ := kinds_append_newline hends source
    exact ⟨_, by rw [hkinds', hword, hkinds]; rfl, hcomplete'.trans hcomplete⟩

end TokenStream

namespace Document

/-- Viable tokens of a source go on, on the next line, to a source that is read. -/
theorem exists_continuation {source : String} {before after : List PlacedToken}
    (htokens : (TokenStream.ofText source).tokens = before ++ after)
    (h : Viable DerivesApart (before.map PlacedToken.token)) :
    ∃ source' d, parse source' = .ok d ∧ before <+: (TokenStream.ofText source').tokens := by
  obtain ⟨ws, a, more, hg, hws, hmore⟩ := h
  obtain ⟨rest, hkinds, hcomplete⟩ := TokenStream.exists_source_of_fillers hmore
  rw [TokenStream.ofText] at htokens hkinds hcomplete
  obtain ⟨left, right, -, hcut⟩ := TokenStream.exists_cut htokens
  -- The line break ends the last token that is kept, so the next line is read as on its own.
  let next := Text.byteLength left + Text.byteLength ['\n']
  have hread : TokenStream.ofText (String.ofList left ++ "\n" ++ rest) =
      TokenStream.prepend before (TokenStream.ofChars next rest.toList) := by
    have halike := (Scan.endsBefore_newline rest.toList).alike right
    have hgap : Ignored.IsGap ['\n'] := fun tail => rfl
    rw [TokenStream.ofText, ← TokenStream.ofChars_gap _ hgap, List.singleton_append,
      ← hcut.reads _ halike]
    simp
  obtain ⟨hkinds', hcomplete'⟩ := TokenStream.kinds_ofChars next rest.toList
  have hs : (TokenStream.ofText (String.ofList left ++ "\n" ++ rest)).isComplete = true := by
    rw [hread, TokenStream.isComplete_prepend, hcomplete', hcomplete]
  have hsource : ws.tokens = (TokenStream.ofText (String.ofList left ++ "\n" ++ rest)).kinds := by
    rw [hread, TokenStream.kinds_prepend, hkinds', hkinds, hws]
  obtain ⟨d, hd, -⟩ := parse_of_derivesApart hg hs hsource
  refine ⟨_, d, hd, ?_⟩
  rw [hread]
  exact List.prefix_append before _

/-- Where a source is turned down, reading has failed in it. -/
theorem exists_failure {source : String} {e : Diagnostic} (h : parse source = .error e) :
    ∃ f, read (Cursor.atStart (TokenStream.ofText source)) = .error f ∧ e = f.diagnostic source := by
  generalize hc : Cursor.atStart (TokenStream.ofText source) = c
  rw [parse, Reader.parse, run, hc] at h
  cases hr : read c with
  | error f =>
    rw [whole, bind_apply, hr] at h
    cases h
    exact ⟨f, rfl, rfl⟩
  | ok p =>
    -- Documents are read up to the end, where the end of the input is found.
    obtain ⟨d, g⟩ := p
    have hend := (sound_read c d g hr).1
    rw [whole, bind_apply, hr] at h
    simp only [bind_apply, endOfInput, hend, if_true] at h
    cases h

/-- Reading fails before the end only where a definition does. -/
theorem definitions_eq_error {c : Cursor} {f : Failure} (h : read c = .error f)
    (hplace : f.place.isComplete = false) : whileMore more Definition.read c = .error f := by
  rw [read, located_eq_error, bind_eq_error] at h
  rcases h with h | ⟨ds, d, hds, h⟩
  · exact h
  · obtain ⟨hdone, -⟩ := sound_definitions c ds d hds
    split at h
    · cases h
      rw [hdone] at hplace
      cases hplace
    · cases h

/-- No document begins with the tokens before a token at which reading fails and then with that
token. -/
theorem not_read_of_fails {c c' : Cursor} {f : Failure} {before before' : List PlacedToken}
    {t : PlacedToken} {rest rest' : List PlacedToken} (hf : read c = .error f)
    (hplace : f.place.tokens = t :: rest) (hc : c.tokens = before ++ t :: rest)
    (hc' : c'.tokens = before' ++ rest')
    (hsame : (before ++ [t]).map PlacedToken.token = before'.map PlacedToken.token)
    (d : Document) (e : Cursor) : read c' ≠ .ok (d, e) := by
  intro hread
  -- Without their places, the two streams overlap in these tokens.
  let o : Overlap := ⟨0, True, rest.map PlacedToken.blank, rest'.map PlacedToken.blank,
    c.blank.ending, c'.blank.ending, fun h => absurd trivial h⟩
  have hmeets : o.Meets c.blank c'.blank := by
    have hmoved : PlacedToken.moved 0 = id := rfl
    refine ⟨⟨(before ++ [t]).map PlacedToken.blank, ?_, ?_⟩, rfl, rfl, rfl⟩
    · simp [Cursor.blank, hc, o, hmoved]
    · rw [PlacedToken.map_blank_eq hsame]
      simp [Cursor.blank, hc', o]
  have hcomplete : f.place.blank.isComplete = false := by
    rw [Cursor.isComplete_blank, Cursor.isComplete, hplace]
  have herror := definitions_eq_error (unplaced_read.eq_error hf) hcomplete
  obtain ⟨a, hok, -⟩ := unplaced_read.eq_ok hread
  obtain ⟨g, hg, -⟩ := located_eq_ok.mp hok
  obtain ⟨ds, last, hds, -⟩ := bind_eq_ok.mp hg
  apply (copies_definitions (o := o) c.blank c'.blank ds last hmeets hds).2 trivial _ herror
  left
  simp [o, Cursor.blank, hplace]

/-- No document begins with what a source is made of up to where reading fails. -/
theorem not_items_prefix {source : String} {f : Failure} {before : List PlacedToken}
    (hf : read (Cursor.atStart (TokenStream.ofText source)) = .error f)
    (htokens : (TokenStream.ofText source).tokens = before ++ f.place.tokens)
    (hfails : ∀ d, parse source ≠ .ok d) {source' : String} {d : Document}
    (hd : parse source' = .ok d) :
    ¬ (TokenStream.ofText source).items.take (before.length + 1) <+:
      (TokenStream.ofText source').items := by
  intro h
  rw [TokenStream.items, TokenStream.kinds, htokens] at h
  cases hplace : f.place.tokens with
  | cons t rest =>
    have htake : (((before ++ t :: rest).map PlacedToken.token).map Item.token ++
        [if (TokenStream.ofText source).isComplete then Item.ended else .broken]).take
          (before.length + 1) = ((before ++ [t]).map PlacedToken.token).map Item.token := by
      simp [List.take_append]
    rw [hplace, htake] at h
    obtain ⟨more, hmore⟩ := TokenStream.prefix_kinds_of_items h
    obtain ⟨before', rest', htokens', hsame, -⟩ := List.map_eq_append_iff.mp hmore.symm
    obtain ⟨b, e, hread, -⟩ := parse_eq_ok_iff.mp hd
    rw [hplace] at htokens
    exact not_read_of_fails hf hplace htokens htokens' hsame.symm b e hread
  | nil =>
    -- Behind its last token, all that can go on with the source are sources with its tokens.
    have hwhole : (TokenStream.ofText source).items <+: (TokenStream.ofText source').items := by
      rw [hplace, List.append_nil] at h
      rw [hplace, List.append_nil] at htokens
      rwa [List.take_of_length_le (by simp), ← htokens] at h
    obtain ⟨hkinds, hcomplete⟩ := TokenStream.eq_of_items_prefix hwhole
    obtain ⟨hs', ws, hws, hg⟩ := derivesApart_of_parse hd
    obtain ⟨b, hb, -⟩ := parse_of_derivesApart hg (hcomplete.trans hs') (hws.trans hkinds.symm)
    exact hfails b hb

/-- The tokens before the item of the source with the given index go on to a document, and together
with the item they do not. -/
structure Offends (source : String) (n : Nat) : Prop where
  viable : ∃ source' d, parse source' = .ok d ∧
    (TokenStream.ofText source).tokens.take n <+: (TokenStream.ofText source').tokens
  fatal : ∀ source' d, parse source' = .ok d →
    ¬ (TokenStream.ofText source).items.take (n + 1) <+: (TokenStream.ofText source').items

/-- The report of a source that is no document points to the first item that cannot be where it
is. -/
theorem exists_offending {source : String} {e : Diagnostic} (h : parse source = .error e) :
    ∃ n span, (TokenStream.ofText source).spans[n]? = some span ∧
      e.location = some (Location.ofOffset source.toList span.start) ∧ Offends source n := by
  obtain ⟨f, hf, rfl⟩ := exists_failure h
  obtain ⟨us, ht, hviable⟩ := recovers_read.fails _ f hf
  obtain ⟨before, htokens, hkinds, hending, -⟩ := ht.exists_tokens
  replace htokens : (TokenStream.ofText source).tokens = before ++ f.place.tokens := htokens
  have hspan : (TokenStream.ofText source).spans[before.length]? = some f.place.nextSpan := by
    have hnext : (f.place.tokens.map PlacedToken.span ++ [f.place.ending.span])[0]? =
        some f.place.nextSpan := by
      rw [Cursor.nextSpan]
      split <;> simp [*]
    rw [TokenStream.spans, htokens, ← hnext, hending]
    simp [Cursor.atStart]
  have hfails : ∀ d, parse source ≠ .ok d := by
    intro d hd
    rw [h] at hd
    cases hd
  refine ⟨before.length, f.place.nextSpan, hspan, rfl, ?_, ?_⟩
  · rw [htokens, List.take_left]
    exact exists_continuation htokens (hkinds ▸ hviable)
  · exact fun source' d hd => not_items_prefix hf htokens hfails hd

set_option maxRecDepth 8192 in
/-- A variable in a constant place. -/
theorem exists_offending_variable :
    ∃ e, parse "query ($a: B = $c) {d}" = .error e ∧
      ∃ n span, (TokenStream.ofText "query ($a: B = $c) {d}").spans[n]? = some span ∧
        e.location = some (Location.ofOffset "query ($a: B = $c) {d}".toList span.start) ∧
        Offends "query ($a: B = $c) {d}" n := by
  have hfail : (parse "query ($a: B = $c) {d}").toOption.isSome = false := by cbv
  cases h : parse "query ($a: B = $c) {d}" with
  | error e => exact ⟨e, rfl, exists_offending h⟩
  | ok d => simp [h, Except.toOption] at hfail

end Document

end GraphQLText
