import GraphQLText.Proofs.Lexing.Local

/-!
# Runs of tokens

A stretch of a source from the beginning of one token to the end of another is made of the same
tokens when it stands elsewhere or on its own. The tokens of a source stand in order, each behind the
end of the one before it.
-/

namespace GraphQLText

set_option autoImplicit false

namespace Ignored

/-- The text may stand before any other one and adds nothing to it. -/
def IsGap (gap : List Char) : Prop :=
  ∀ tail, skip false (gap ++ tail) = skip false tail

theorem isGap_nil : IsGap [] :=
  fun _ => rfl

/-- What is skipped before a token ends outside a comment. -/
theorem skip_append_of_eq {comment : Bool} {gap tail : List Char} {c : Char}
    (h : skip comment (gap ++ c :: tail) = c :: tail) (tail' : List Char) :
    skip comment (gap ++ tail') = skip false tail' := by
  induction gap generalizing comment with
  | nil =>
    cases comment with
    | false => rfl
    | true =>
      -- a comment takes at least `c`, so what it leaves is shorter
      have hlen : (skip true (c :: tail)).length ≤ tail.length := by
        rw [skip]
        split <;> exact length_skip_le _ tail
      rw [List.nil_append] at h
      rw [h, List.length_cons] at hlen
      omega
  | cons d gap ih =>
    cases comment with
    | true =>
      simp only [List.cons_append, skip] at h ⊢
      split at h
      · next hd => rw [if_pos hd, ih h]
      · next hd => rw [if_neg hd, ih h]
    | false =>
      simp only [List.cons_append, skip] at h ⊢
      split at h
      · next hd => rw [if_pos hd, ih h]
      · next hd =>
        split at h
        · next hmark => rw [if_neg hd, if_pos hmark, ih h]
        · have hlen := congrArg List.length h
          simp only [List.length_cons, List.length_append] at hlen
          omega

theorem isGap_of_skip {cs tail : List Char} {c : Char} (h : skip false cs = c :: tail) :
    ∃ gap, cs = gap ++ c :: tail ∧ IsGap gap := by
  obtain ⟨gap, hgap⟩ := h ▸ skip_suffix false cs
  refine ⟨gap, hgap.symm, ?_⟩
  rw [← hgap] at h
  exact skip_append_of_eq h

end Ignored

def PlacedToken.moved (shift : Nat) (t : PlacedToken) : PlacedToken :=
  { t with start := t.start + shift }

@[simp] theorem PlacedToken.token_moved (shift : Nat) (t : PlacedToken) :
    (t.moved shift).token = t.token := rfl

@[simp] theorem PlacedToken.moved_moved (m n : Nat) (t : PlacedToken) :
    (t.moved n).moved m = t.moved (n + m) := by
  simp [moved, Nat.add_assoc]

@[simp] theorem PlacedToken.stop_moved (shift : Nat) (t : PlacedToken) :
    (t.moved shift).span.stop = t.span.stop + shift := by
  simp [moved, span, Nat.add_right_comm]

theorem Text.byteLength_pos {cs : List Char} (h : cs ≠ []) : 0 < byteLength cs := by
  cases cs with
  | nil => exact absurd rfl h
  | cons c cs =>
    have := c.utf8Size_pos
    rw [byteLength_cons]
    omega

namespace TokenStream

def prepend (ts : List PlacedToken) (stream : TokenStream) : TokenStream :=
  { stream with tokens := ts ++ stream.tokens }

theorem cons_prepend (t : PlacedToken) (ts : List PlacedToken) (stream : TokenStream) :
    cons t (prepend ts stream) = prepend (t :: ts) stream := rfl

theorem ofChars_nil (offset : Nat) : ofChars offset [] = ⟨[], .complete offset⟩ := by
  rw [ofChars]
  rfl

/-- The first token of a text stands where the gap before it ends. -/
theorem ofChars_of_scan (offset : Nat) {gap text tail rest : List Char} {c : Char} {t : Token}
    (hgap : Ignored.IsGap gap) (heq : text ++ rest = c :: tail) (hlead : Lead.ofChar c ≠ .other)
    (hs : Scan.token? c tail = .token t rest) :
    ofChars offset (gap ++ text ++ rest) =
      cons ⟨t, String.ofList text, offset + Text.byteLength gap⟩
        (ofChars (offset + Text.byteLength gap + Text.byteLength text) rest) := by
  have hskip : Ignored.skip false (gap ++ text ++ rest) = c :: tail := by
    rw [List.append_assoc, hgap, heq, Lead.skip_of_ofChar hlead]
  have hbefore : Text.consumed (gap ++ text ++ rest) (c :: tail) = gap := by
    rw [List.append_assoc, heq, Text.consumed_append]
  have hconsumed : Text.consumed (c :: tail) rest = text := by
    rw [← heq, Text.consumed_append]
  rw [ofChars]
  simp only
  split
  · next hnil => exact absurd (hskip.symm.trans hnil) (by simp)
  · next d more hcons =>
    rw [hskip] at hcons
    obtain ⟨rfl, rfl⟩ := List.cons.inj hcons
    split
    · next hb => simp [hs] at hb
    · next t' rest' ht =>
      rw [hs] at ht
      simp only [Scan.token.injEq] at ht
      obtain ⟨rfl, rfl⟩ := ht
      rw [hskip, hbefore, hconsumed]

/-- The text is made of the tokens, from the beginning of the first one to the end of the last one,
wherever it stands before a text that begins like the rest. -/
structure Run (text : List Char) (ts : List PlacedToken) (rest : List Char) : Prop where
  ne_nil : text ≠ []
  starts : ts.head?.map PlacedToken.start = some 0
  stops : ts.getLast?.map (fun t => t.span.stop) = some (Text.byteLength text)
  reads : ∀ offset gap rest', Ignored.IsGap gap → Scan.Alike rest rest' →
    ofChars offset (gap ++ text ++ rest') =
      prepend (ts.map (PlacedToken.moved (offset + Text.byteLength gap)))
        (ofChars (offset + Text.byteLength gap + Text.byteLength text) rest')

theorem run_of_spells {text rest : List Char} {t : Token} (h : Scan.Spells text t rest)
    (hne : text ≠ []) : Run text [⟨t, String.ofList text, 0⟩] rest where
  ne_nil := hne
  starts := rfl
  stops := by simp [PlacedToken.span]
  reads := by
    intro offset gap rest' hgap hr
    obtain ⟨c, tail, heq, hlead, hs⟩ := h rest' hr
    rw [ofChars_of_scan offset hgap heq hlead hs]
    simp [prepend, cons, PlacedToken.moved]

theorem Run.append {text text' gap rest : List Char} {ts ts' : List PlacedToken}
    (h : Run text ts (gap ++ text' ++ rest)) (hgap : Ignored.IsGap gap) (h' : Run text' ts' rest) :
    Run (text ++ gap ++ text')
      (ts ++ ts'.map (PlacedToken.moved (Text.byteLength text + Text.byteLength gap))) rest where
  ne_nil := by simp [h.ne_nil]
  starts := by
    have hstarts := h.starts
    cases ts with
    | nil => simp at hstarts
    | cons t ts => simpa using hstarts
  stops := by
    obtain ⟨t, hlast, hstop⟩ := Option.map_eq_some_iff.mp h'.stops
    simp [List.getLast?_append, hlast, hstop]
    omega
  reads := by
    intro offset before rest' hbefore hr
    have halike : Scan.Alike (gap ++ text' ++ rest) (gap ++ text' ++ rest') := by
      obtain ⟨x, xs, hx⟩ :=
        List.exists_cons_of_ne_nil (List.append_ne_nil_of_right_ne_nil gap h'.ne_nil)
      rw [hx]
      exact fun d hd => .inl hd
    have hfirst := h.reads offset before (gap ++ text' ++ rest') hbefore halike
    have hsecond :=
      h'.reads (offset + Text.byteLength before + Text.byteLength text) gap rest' hgap hr
    rw [hsecond] at hfirst
    simp only [List.append_assoc] at hfirst ⊢
    rw [hfirst]
    simp [prepend, Nat.add_assoc, Nat.add_comm, Nat.add_left_comm, Function.comp_def]

theorem Run.ofChars {text rest : List Char} {ts : List PlacedToken} (h : Run text ts rest) :
    TokenStream.ofChars 0 text = ⟨ts, .complete (Text.byteLength text)⟩ := by
  have hnil : Scan.Alike rest [] := by
    intro d hd
    simp at hd
  have hreads := h.reads 0 [] [] Ignored.isGap_nil hnil
  have hzero : PlacedToken.moved 0 = id := by
    funext t
    rfl
  simpa [ofChars_nil, prepend, hzero] using hreads

/-- The first token of a text, with the gap before it and the text behind it. -/
theorem exists_of_tokens_eq_cons {offset : Nat} {cs : List Char} {u : PlacedToken}
    {vs : List PlacedToken} (h : (ofChars offset cs).tokens = u :: vs) :
    ∃ gap text rest, cs = gap ++ text ++ rest ∧ Ignored.IsGap gap ∧ text ≠ [] ∧
      Scan.Spells text u.token rest ∧
      u = ⟨u.token, String.ofList text, offset + Text.byteLength gap⟩ ∧
      ofChars offset cs =
        cons u (ofChars (offset + Text.byteLength gap + Text.byteLength text) rest) := by
  cases hskip : Ignored.skip false cs with
  | nil =>
    obtain ⟨stop, heq⟩ := ofChars_of_skip_nil offset hskip
    rw [heq] at h
    exact absurd h (by simp)
  | cons c tail =>
    obtain ⟨gap, rfl, hgap⟩ := Ignored.isGap_of_skip hskip
    cases hs : Scan.token? c tail with
    | broken f text lexeme =>
      obtain ⟨start, heq⟩ := ofChars_of_broken offset hskip hs
      rw [heq] at h
      exact absurd h (by simp)
    | token t rest =>
      obtain ⟨text, rfl, hspells⟩ := Scan.spells_of_token? hs
      obtain ⟨d, tail, heq, hlead, hscan⟩ := hspells rest (.refl rest)
      have hread := ofChars_of_scan offset hgap heq hlead hscan
      have hcs : gap ++ c :: (text ++ rest) = gap ++ (c :: text) ++ rest := by simp
      rw [hcs, hread] at h ⊢
      obtain ⟨rfl, _⟩ := List.cons.inj h
      exact ⟨gap, c :: text, rest, rfl, hgap, by simp, hspells, rfl, rfl⟩

theorem exists_run {offset : Nat} {cs : List Char} {us vs : List PlacedToken} (hne : us ≠ [])
    (h : (ofChars offset cs).tokens = us ++ vs) :
    ∃ gap text rest ts, cs = gap ++ text ++ rest ∧ Ignored.IsGap gap ∧ Run text ts rest ∧
      us = ts.map (PlacedToken.moved (offset + Text.byteLength gap)) ∧
      ofChars offset cs =
        prepend us (ofChars (offset + Text.byteLength gap + Text.byteLength text) rest) := by
  induction us generalizing offset cs with
  | nil => exact absurd rfl hne
  | cons u us ih =>
    obtain ⟨gap, text, rest, rfl, hgap, htext, hspells, hu, heq⟩ := exists_of_tokens_eq_cons h
    have hrun := run_of_spells hspells htext
    rw [heq] at h
    have hrest := List.cons.inj h
    cases us with
    | nil =>
      refine ⟨gap, text, rest, _, rfl, hgap, hrun, ?_, heq⟩
      rw [hu]
      simp [PlacedToken.moved]
    | cons v us =>
      obtain ⟨gap', text', rest', ts, rfl, hgap', hrun', hus, heq'⟩ := ih (by simp) hrest.2
      refine ⟨gap, text ++ gap' ++ text', rest', _, by simp, hgap, hrun.append hgap' hrun', ?_, ?_⟩
      · rw [hus, hu]
        simp only [List.map_map, List.map_cons, List.singleton_append]
        congr 1
        · simp [PlacedToken.moved]
        · apply List.map_congr_left
          intro t _
          simp only [Function.comp_apply, PlacedToken.moved_moved]
          congr 1
          omega
      · rw [heq, heq', cons_prepend]
        simp [Nat.add_assoc]

/-- A stretch of tokens is what the text between its ends is made of. -/
theorem exists_slice {offset : Nat} {cs : List Char} {before mid after : List PlacedToken}
    (hne : mid ≠ []) (h : (ofChars offset cs).tokens = before ++ mid ++ after) :
    ∃ pre text post ts, cs = pre ++ text ++ post ∧ Run text ts post ∧
      mid = ts.map (PlacedToken.moved (offset + Text.byteLength pre)) := by
  induction before generalizing offset cs with
  | nil =>
    obtain ⟨gap, text, rest, ts, hcs, _, hrun, hmid, _⟩ := exists_run hne h
    exact ⟨gap, text, rest, ts, hcs, hrun, hmid⟩
  | cons u before ih =>
    obtain ⟨gap, text, rest, rfl, _, _, _, _, heq⟩ := exists_of_tokens_eq_cons h
    rw [heq] at h
    obtain ⟨pre, text', post, ts, rfl, hrun, hmid⟩ := ih (List.cons.inj h).2
    refine ⟨gap ++ text ++ pre, text', post, ts, by simp, hrun, ?_⟩
    rw [hmid]
    simp [Nat.add_assoc]

/-- Where the tokens of the stream stand, and its ending behind them. -/
def spans (stream : TokenStream) : List Span :=
  stream.tokens.map PlacedToken.span ++ [stream.ending.span]

theorem spans_cons (t : PlacedToken) (stream : TokenStream) :
    (cons t stream).spans = t.span :: stream.spans := rfl

theorem start_ending_ofChars {offset : Nat} {cs : List Char}
    (h : (ofChars offset cs).tokens = []) : offset ≤ (ofChars offset cs).ending.span.start := by
  generalize hstream : ofChars offset cs = stream at h ⊢
  rw [ofChars] at hstream
  simp only at hstream
  split at hstream
  · rw [← hstream]
    exact Nat.le_add_right ..
  · split at hstream
    · rw [← hstream]
      exact Nat.le_add_right ..
    · rw [← hstream] at h
      exact absurd h (by simp [cons])

/-- Each token begins where those before it have ended, and so does the ending. -/
theorem pairwise_spans (offset : Nat) (cs : List Char) :
    (∀ s ∈ (ofChars offset cs).spans, offset ≤ s.start) ∧
      (ofChars offset cs).spans.Pairwise fun s t => s.start < t.start ∧ s.stop ≤ t.start := by
  generalize htokens : (ofChars offset cs).tokens = ts
  induction ts generalizing offset cs with
  | nil =>
    have hending := start_ending_ofChars htokens
    simp [spans, htokens, hending]
  | cons u us ih =>
    obtain ⟨gap, text, rest, rfl, _, hne, _, hu, heq⟩ := exists_of_tokens_eq_cons htokens
    obtain ⟨hfrom, hpairs⟩ := ih (offset + Text.byteLength gap + Text.byteLength text) rest
      (by rw [heq] at htokens; exact (List.cons.inj htokens).2)
    have hstart : u.span.start = offset + Text.byteLength gap := by rw [hu]; rfl
    have hstop : u.span.stop = offset + Text.byteLength gap + Text.byteLength text := by
      rw [hu, PlacedToken.span, String.toList_ofList]
    have hpos := Text.byteLength_pos hne
    rw [heq, spans_cons]
    refine ⟨?_, List.pairwise_cons.mpr ⟨?_, hpairs⟩⟩
    · intro s hs
      rcases List.mem_cons.mp hs with rfl | hs
      · omega
      · have := hfrom s hs
        omega
    · intro s hs
      have := hfrom s hs
      omega

end TokenStream

end GraphQLText
