import GraphQLText.Proofs.Lexing.Run

/-!
# Ignored text between tokens

Ignored text that is put where a token begins or ends changes no token. The tokens behind it stand as
many bytes further on as it takes. Two texts that are put on lines of their own keep their tokens.
-/

namespace GraphQLText

set_option autoImplicit false

namespace Ignored

/-- Ignored characters, and comments that end with their lines. -/
inductive IsIgnorable : List Char → Prop
  | nil : IsIgnorable []
  | char {c : Char} {cs : List Char} : isIgnored c = true → IsIgnorable cs → IsIgnorable (c :: cs)
  | comment {body : List Char} {c : Char} {cs : List Char} : (∀ d ∈ body, isLineEnd d = false) →
      isLineEnd c = true → IsIgnorable cs → IsIgnorable ('#' :: (body ++ c :: cs))

/-- A comment is skipped up to the end of its line. -/
theorem skip_comment {body : List Char} (h : ∀ d ∈ body, isLineEnd d = false) {c : Char}
    (hc : isLineEnd c = true) (tail : List Char) :
    skip true (body ++ c :: tail) = skip false tail := by
  induction body with
  | nil => simp [skip, hc]
  | cons d body ih =>
    have hd := h d (List.mem_cons_self ..)
    rw [List.cons_append, skip, if_neg (by simp [hd])]
    exact ih fun e he => h e (List.mem_cons_of_mem d he)

theorem IsIgnorable.isGap {gap : List Char} (h : IsIgnorable gap) : IsGap gap := by
  intro tail
  induction h with
  | nil => rfl
  | char hc _ ih => rw [List.cons_append, skip, if_pos hc, ih]
  | @comment body c cs hbody hc _ ih =>
    have hmark : isIgnored '#' = false := by decide
    rw [List.cons_append, skip, if_neg (by simp [hmark]), if_pos rfl, List.append_assoc]
    exact (skip_comment hbody hc _).trans ih

/-- A line break ends a comment and all else that has been skipped. -/
theorem skip_append_newline {comment : Bool} {cs : List Char} (h : skip comment cs = [])
    (tail : List Char) : skip comment (cs ++ '\n' :: tail) = skip false tail := by
  fun_induction skip comment cs with
  | case1 comment => cases comment <;> rfl
  | case2 c cs hc ih => rw [List.cons_append, skip, if_pos hc, ih h]
  | case3 c cs hc ih => rw [List.cons_append, skip, if_neg hc, ih h]
  | case4 c cs hc ih => rw [List.cons_append, skip, if_pos hc, ih h]
  | case5 cs hc ih => rw [List.cons_append, skip, if_neg hc, if_pos rfl, ih h]
  | case6 => exact absurd h (List.cons_ne_nil _ _)

theorem isTail_of_isIgnored {c : Char} (h : isIgnored c = true) :
    Number.isTail c = false ∧ c ≠ '"' := by
  simp only [isIgnored, Bool.or_eq_true, beq_iff_eq] at h
  rcases h with (((((rfl | rfl) | rfl) | rfl) | rfl) | rfl) | rfl <;> decide

theorem IsIgnorable.alike {gap : List Char} (h : IsIgnorable gap) (rest : List Char) :
    Scan.Alike rest (gap ++ rest) := by
  cases h with
  | nil => exact .refl rest
  | char hc _ =>
    rintro d ⟨⟩
    exact .inr (isTail_of_isIgnored hc)
  | comment =>
    rintro d ⟨⟩
    exact .inr (by decide)

end Ignored

theorem Scan.Alike.append_left {rest rest' : List Char} (h : Scan.Alike rest rest')
    (xs : List Char) : Scan.Alike (xs ++ rest) (xs ++ rest') := by
  cases xs with
  | nil => exact h
  | cons x xs => exact fun d hd => .inl hd

theorem Scan.endsBefore_newline (tail : List Char) : Scan.EndsBefore ('\n' :: tail) := by
  rintro d ⟨⟩
  decide

theorem Scan.alike_append_newline (rest tail : List Char) :
    Scan.Alike rest (rest ++ '\n' :: tail) := by
  cases rest with
  | nil => exact (endsBefore_newline tail).alike []
  | cons c rest => exact fun d hd => .inl hd

namespace Text

/-- A text is cut in two in one way at each place. -/
theorem append_inj_of_byteLength {xs xs' ys ys' : List Char} (h : xs ++ ys = xs' ++ ys')
    (hlen : byteLength xs = byteLength xs') : xs = xs' ∧ ys = ys' := by
  have hxs : xs = xs' := by
    rw [← takeBytes_byteLength_append xs ys, h, hlen, takeBytes_byteLength_append]
  exact ⟨hxs, List.append_cancel_left (hxs ▸ h)⟩

end Text

def Ending.moved (shift : Nat) : Ending → Ending
  | complete offset => complete (offset + shift)
  | broken fault text lexeme start => broken fault text lexeme (start + shift)

namespace TokenStream

def moved (shift : Nat) (stream : TokenStream) : TokenStream :=
  ⟨stream.tokens.map (PlacedToken.moved shift), stream.ending.moved shift⟩

/-- What comes of a text is told from what is left of it when the ignored characters are gone. -/
theorem ofChars_eq (offset : Nat) (cs : List Char) :
    ofChars offset cs =
      match Ignored.skip false cs with
      | [] => ⟨[], .complete (offset + Text.byteLength (Text.consumed cs []))⟩
      | c :: tail =>
        let start := offset + Text.byteLength (Text.consumed cs (c :: tail))
        match Scan.token? c tail with
        | .broken fault text lexeme =>
          ⟨[], .broken fault (String.ofList text) (String.ofList lexeme) start⟩
        | .token token rest =>
          let text := Text.consumed (c :: tail) rest
          cons ⟨token, String.ofList text, start⟩
            (ofChars (start + Text.byteLength text) rest) := by
  rw [ofChars]
  simp only
  split
  · next h => simp only [h]
  · next h =>
    simp only [h]
    split
    · next hs => simp only [hs]
    · next hs => simp only [hs]

theorem ofChars_gap (offset : Nat) {gap : List Char} (hgap : Ignored.IsGap gap) (cs : List Char) :
    ofChars offset (gap ++ cs) = ofChars (offset + Text.byteLength gap) cs := by
  have hconsumed : offset + Text.byteLength (Text.consumed (gap ++ cs) (Ignored.skip false cs)) =
      offset + Text.byteLength gap +
        Text.byteLength (Text.consumed cs (Ignored.skip false cs)) := by
    obtain ⟨before, hbefore⟩ := Ignored.skip_suffix false cs
    generalize Ignored.skip false cs = ahead at hbefore ⊢
    subst hbefore
    rw [← List.append_assoc, Text.consumed_append, Text.consumed_append, Text.byteLength_append,
      Nat.add_assoc]
  rw [ofChars_eq, ofChars_eq (offset + Text.byteLength gap), hgap]
  cases hskip : Ignored.skip false cs with
  | nil =>
    rw [hskip] at hconsumed
    simp only [hconsumed]
  | cons c tail =>
    rw [hskip] at hconsumed
    simp only [hconsumed]

theorem ofChars_add (offset shift : Nat) (cs : List Char) :
    ofChars (offset + shift) cs = (ofChars offset cs).moved shift := by
  induction hn : cs.length using Nat.strongRecOn generalizing offset cs with
  | ind n ih =>
    rw [ofChars_eq (offset + shift), ofChars_eq offset]
    cases hskip : Ignored.skip false cs with
    | nil => simp [moved, Ending.moved, Nat.add_right_comm]
    | cons c tail =>
      simp only
      cases hs : Scan.token? c tail with
      | broken fault text lexeme => simp [moved, Ending.moved, Nat.add_right_comm]
      | token t rest =>
        have hrest := Scan.length_rest_of_token? hs
        have hskipped := Ignored.length_skip_le false cs
        rw [hskip, List.length_cons] at hskipped
        have htail := ih rest.length (by omega) (offset +
          Text.byteLength (Text.consumed cs (c :: tail)) +
          Text.byteLength (Text.consumed (c :: tail) rest)) rest rfl
        simp only [moved, cons, List.map_cons, PlacedToken.moved] at htail ⊢
        rw [Nat.add_right_comm offset shift, Nat.add_right_comm _ shift, htail]

/-- No token goes across the place between the two parts: the first one is read as the tokens
whatever stands behind it, if that begins like the second part or ends every token. -/
structure Cut (left : List Char) (us : List PlacedToken) (right : List Char) : Prop where
  stop_le : ∀ u ∈ us, u.span.stop ≤ Text.byteLength left
  reads : ∀ right', Scan.Alike right right' →
    ofChars 0 (left ++ right') = prepend us (ofChars (Text.byteLength left) right')

/-- The end of a run, perhaps with a gap behind it. -/
theorem Run.cut {gap text gap' right : List Char} {ts : List PlacedToken}
    (h : Run text ts (gap' ++ right)) (hgap : Ignored.IsGap gap) (hgap' : Ignored.IsGap gap')
    (hstop : ∀ u ∈ ts.map (PlacedToken.moved (Text.byteLength gap)),
      u.span.stop ≤ Text.byteLength (gap ++ text ++ gap')) :
    Cut (gap ++ text ++ gap') (ts.map (PlacedToken.moved (Text.byteLength gap))) right where
  stop_le := hstop
  reads right' halike := by
    have hreads := h.reads 0 gap (gap' ++ right') hgap (halike.append_left gap')
    rw [Nat.zero_add, ofChars_gap _ hgap', ← List.append_assoc] at hreads
    rw [hreads, Text.byteLength_append, Text.byteLength_append]

theorem stop_le_start {offset : Nat} {cs : List Char} {us vs : List PlacedToken} {v : PlacedToken}
    (h : (ofChars offset cs).tokens = us ++ v :: vs) : ∀ u ∈ us, u.span.stop ≤ v.span.start := by
  intro u hu
  have hpairs := (pairwise_spans offset cs).2
  rw [spans, h, List.map_append, List.map_cons, List.append_assoc] at hpairs
  exact ((List.pairwise_append.mp hpairs).2.2 u.span (List.mem_map_of_mem hu) v.span (by simp)).2

theorem exists_cut_before {cs : List Char} {us vs : List PlacedToken} {v : PlacedToken}
    (h : (ofChars 0 cs).tokens = us ++ v :: vs) :
    ∃ left right, cs = left ++ right ∧ Text.byteLength left = v.span.start ∧ Cut left us right := by
  have hstop := stop_le_start h
  by_cases hne : us = []
  · -- Only a gap stands before the first token, and no run.
    subst hne
    obtain ⟨gap, text, rest, rfl, hgap, -, -, hv, -⟩ := exists_of_tokens_eq_cons h
    refine ⟨gap, text ++ rest, by simp, by rw [hv, PlacedToken.span, Nat.zero_add], by simp, ?_⟩
    intro right' _
    rw [ofChars_gap 0 hgap, Nat.zero_add]
    rfl
  · obtain ⟨gap, text, rest, ts, rfl, hgap, hrun, hus, heq⟩ := exists_run hne h
    rw [heq] at h
    obtain ⟨gap', text', rest', rfl, hgap', -, -, hv, -⟩ :=
      exists_of_tokens_eq_cons (List.append_cancel_left h)
    rw [Nat.zero_add] at hus
    have hlen : Text.byteLength (gap ++ text ++ gap') = v.span.start := by
      rw [hv]
      simp [PlacedToken.span, Nat.add_assoc]
    refine ⟨gap ++ text ++ gap', text' ++ rest', by simp, hlen, ?_⟩
    rw [List.append_assoc] at hrun
    rw [← hlen, hus] at hstop
    exact hus ▸ hrun.cut hgap hgap' hstop

theorem exists_cut_behind {cs : List Char} {us vs : List PlacedToken} {v : PlacedToken}
    (h : (ofChars 0 cs).tokens = us ++ v :: vs) :
    ∃ left right, cs = left ++ right ∧ Text.byteLength left = v.span.stop ∧
      Cut left (us ++ [v]) right := by
  have hstop := stop_le_start h
  have hsplit : (ofChars 0 cs).tokens = (us ++ [v]) ++ vs := by simp [h]
  obtain ⟨gap, text, rest, ts, rfl, hgap, hrun, hus, -⟩ := exists_run (by simp) hsplit
  rw [Nat.zero_add] at hus
  have hlen : Text.byteLength (gap ++ text ++ []) = v.span.stop := by
    obtain ⟨t, hlast, hend⟩ := Option.map_eq_some_iff.mp hrun.stops
    have hv : v = t.moved (Text.byteLength gap) := by
      have hlasts := congrArg List.getLast? hus
      rw [List.getLast?_concat, List.getLast?_map, hlast] at hlasts
      exact Option.some.inj hlasts
    rw [hv, PlacedToken.stop_moved, hend]
    simp [Nat.add_comm]
  refine ⟨gap ++ text ++ [], rest, by simp, hlen, ?_⟩
  rw [hus]
  refine Run.cut (by simpa using hrun) hgap Ignored.isGap_nil ?_
  rw [← hus, hlen]
  intro u hu
  rcases List.mem_append.mp hu with hbefore | hlast
  · exact Nat.le_trans (hstop u hbefore) (Nat.le_add_right ..)
  · exact Nat.le_of_eq (by rw [List.mem_singleton.mp hlast])

theorem exists_cut {cs : List Char} {us vs : List PlacedToken}
    (h : (ofChars 0 cs).tokens = us ++ vs) :
    ∃ left right, cs = left ++ right ∧ Cut left us right := by
  rcases List.eq_nil_or_concat us with rfl | ⟨us, v, rfl⟩
  · exact ⟨[], cs, rfl, by simp, fun _ _ => rfl⟩
  · rw [List.concat_eq_append, List.append_assoc, List.singleton_append] at h
    obtain ⟨left, right, hcs, -, hcut⟩ := exists_cut_behind h
    exact ⟨left, right, hcs, by rwa [List.concat_eq_append]⟩

theorem exists_of_mem_of_start {offset : Nat} {cs : List Char} {t : PlacedToken}
    (ht : t ∈ (ofChars offset cs).tokens) (hstart : t.span.start = offset) :
    ∃ text rest more, cs = text ++ rest ∧ Scan.Spells text t.token rest ∧
      t = ⟨t.token, String.ofList text, offset⟩ ∧ (ofChars offset cs).tokens = t :: more := by
  obtain ⟨u, us, htokens⟩ := List.exists_cons_of_ne_nil (List.ne_nil_of_mem ht)
  obtain ⟨gap, text, rest, rfl, -, -, hspells, hu, -⟩ := exists_of_tokens_eq_cons htokens
  obtain ⟨hfrom, hpairs⟩ := pairwise_spans offset (gap ++ text ++ rest)
  simp only [spans, htokens, List.map_cons, List.cons_append] at hfrom hpairs
  have hfirst : t = u := by
    rw [htokens] at ht
    rcases List.mem_cons.mp ht with rfl | hlater
    · rfl
    · have hle := hfrom u.span (List.mem_cons_self ..)
      have hlt := (List.pairwise_cons.mp hpairs).1 t.span
        (List.mem_append_left _ (List.mem_map_of_mem hlater))
      omega
  subst hfirst
  have hgap : Text.byteLength gap = 0 := by
    rw [hu] at hstart
    simpa [PlacedToken.span] using hstart
  have hnil : gap = [] := by
    by_cases hne : gap = []
    · exact hne
    · have hpos := Text.byteLength_pos hne
      omega
  subst hnil
  exact ⟨text, rest, us, rfl, hspells, hu, htokens⟩

theorem ne_nil_of_spells {text rest : List Char} {t : Token} (h : Scan.Spells text t rest) :
    text ≠ [] := by
  rintro rfl
  obtain ⟨c, tail, hnil, -⟩ := h [] fun d hd => by simp at hd
  cases hnil

/-- A text is the same token before all texts before which it is one. -/
theorem token_eq_of_spells {text rest rest' : List Char} {t t' : Token}
    (h : Scan.Spells text t rest) (h' : Scan.Spells text t' rest') : t = t' := by
  have halike : ∀ rest, Scan.Alike rest [] := fun rest d hd => by simp at hd
  obtain ⟨c, tail, htext, -, hs⟩ := h [] (halike rest)
  obtain ⟨c', tail', htext', -, hs'⟩ := h' [] (halike rest')
  rw [htext] at htext'
  obtain ⟨rfl, rfl⟩ := List.cons.inj htext'
  rw [hs] at hs'
  exact (Scan.token.inj hs').1

/-- The text before a token, its own text, and the text behind it. -/
theorem exists_of_tokens_eq_append {cs : List Char} {before after : List PlacedToken}
    {t : PlacedToken} (h : (ofChars 0 cs).tokens = before ++ t :: after) :
    ∃ blank text rest, cs = blank ++ (text ++ rest) ∧ Cut blank before (text ++ rest) ∧
      Scan.Spells text t.token rest ∧ t = ⟨t.token, String.ofList text, Text.byteLength blank⟩ ∧
      t.span = ⟨Text.byteLength blank, Text.byteLength (blank ++ text)⟩ := by
  obtain ⟨blank, behind, rfl, hblank, hcut⟩ := exists_cut_before h
  have hfirst : t ∈ (ofChars (Text.byteLength blank) behind).tokens := by
    rw [hcut.reads behind (.refl behind), prepend] at h
    exact List.append_cancel_left h ▸ List.mem_cons_self ..
  obtain ⟨text, rest, -, rfl, hspells, ht, -⟩ := exists_of_mem_of_start hfirst hblank.symm
  refine ⟨blank, text, rest, rfl, hcut, hspells, ht, ?_⟩
  rw [ht]
  simp [PlacedToken.span]

/-- Ignored text in the cut moves the tokens behind it. -/
theorem Cut.insert {left right gap : List Char} {us : List PlacedToken} (h : Cut left us right)
    (hgap : Ignored.IsIgnorable gap) :
    ofChars 0 (left ++ gap ++ right) =
      prepend us ((ofChars (Text.byteLength left) right).moved (Text.byteLength gap)) := by
  rw [List.append_assoc, h.reads _ (hgap.alike right), ofChars_gap _ hgap.isGap, ofChars_add]

/-- The second stream has the tokens of the first one, those behind the place as many bytes further
on. -/
def Opened (place shift : Nat) (stream stream' : TokenStream) : Prop :=
  ∃ us vs, stream.tokens = us ++ vs ∧ (∀ u ∈ us, u.span.stop ≤ place) ∧
    (∀ v ∈ vs, place ≤ v.span.start) ∧ stream'.tokens = us ++ vs.map (PlacedToken.moved shift)

/-- Ignored text that is put where a token begins or ends changes nothing but where the tokens behind
it stand. -/
theorem opened_of_insert {left gap right : String} {t : PlacedToken}
    (ht : t ∈ (ofText (left ++ right)).tokens)
    (hplace : left.utf8ByteSize = t.span.start ∨ left.utf8ByteSize = t.span.stop)
    (hgap : Ignored.IsIgnorable gap.toList) :
    Opened left.utf8ByteSize gap.utf8ByteSize (ofText (left ++ right))
        (ofText (left ++ gap ++ right)) ∧
      (ofText (left ++ gap ++ right)).isComplete = (ofText (left ++ right)).isComplete := by
  obtain ⟨before, after, htokens⟩ := List.append_of_mem ht
  simp only [ofText, String.toList_append] at htokens ⊢
  -- cut before or behind the token, the two parts are those given, for they are as long
  have hcut : ∃ us, Cut left.toList us right.toList := by
    rcases hplace with hstart | hstop
    · obtain ⟨xs, ys, hsource, hlen, hcut⟩ := exists_cut_before htokens
      rw [← hstart, ← Text.byteLength_toList] at hlen
      obtain ⟨rfl, rfl⟩ := Text.append_inj_of_byteLength hsource.symm hlen
      exact ⟨_, hcut⟩
    · obtain ⟨xs, ys, hsource, hlen, hcut⟩ := exists_cut_behind htokens
      rw [← hstop, ← Text.byteLength_toList] at hlen
      obtain ⟨rfl, rfl⟩ := Text.append_inj_of_byteLength hsource.symm hlen
      exact ⟨_, hcut⟩
  obtain ⟨us, hcut⟩ := hcut
  have hread := hcut.reads right.toList (.refl _)
  have hinsert := hcut.insert hgap
  have hstop := hcut.stop_le
  have hstart := (pairwise_spans (Text.byteLength left.toList) right.toList).1
  rw [hread, hinsert, ← Text.byteLength_toList, ← Text.byteLength_toList]
  refine ⟨⟨us, _, rfl, hstop, ?_, rfl⟩, ?_⟩
  · intro v hv
    exact hstart v.span (List.mem_append_left _ (List.mem_map_of_mem hv))
  · simp only [isComplete, prepend, moved]
    cases (ofChars (Text.byteLength left.toList) right.toList).ending <;> rfl

@[simp] theorem kinds_moved (shift : Nat) (stream : TokenStream) :
    (stream.moved shift).kinds = stream.kinds := by
  simp [moved, kinds, Function.comp_def]

@[simp] theorem isComplete_moved (shift : Nat) (stream : TokenStream) :
    (stream.moved shift).isComplete = stream.isComplete := by
  obtain ⟨tokens, ending⟩ := stream
  cases ending <;> rfl

@[simp] theorem kinds_prepend (ts : List PlacedToken) (stream : TokenStream) :
    (prepend ts stream).kinds = ts.map PlacedToken.token ++ stream.kinds :=
  List.map_append

@[simp] theorem isComplete_prepend (ts : List PlacedToken) (stream : TokenStream) :
    (prepend ts stream).isComplete = stream.isComplete := rfl

theorem kinds_ofChars (offset : Nat) (cs : List Char) :
    (ofChars offset cs).kinds = (ofChars 0 cs).kinds ∧
      (ofChars offset cs).isComplete = (ofChars 0 cs).isComplete := by
  have hadd := ofChars_add 0 offset cs
  rw [Nat.zero_add] at hadd
  rw [hadd, kinds_moved, isComplete_moved]
  exact ⟨rfl, rfl⟩

theorem skip_of_tokens_eq_nil {offset : Nat} {cs : List Char} (h : (ofChars offset cs).tokens = [])
    (hcomplete : (ofChars offset cs).isComplete = true) : Ignored.skip false cs = [] := by
  rw [ofChars_eq] at h hcomplete
  cases hskip : Ignored.skip false cs with
  | nil => rfl
  | cons c tail =>
    simp only [hskip] at h hcomplete
    cases hs : Scan.token? c tail with
    | token => simp [hs, cons] at h
    | broken => simp [hs, isComplete] at hcomplete

/-- A text has the tokens of its lines where no token goes across their end. -/
theorem kinds_append_newline {s : String} (hs : (ofText s).isComplete = true) (t : String) :
    (ofText (s ++ "\n" ++ t)).kinds = (ofText s).kinds ++ (ofText t).kinds ∧
      (ofText (s ++ "\n" ++ t)).isComplete = (ofText t).isComplete := by
  simp only [ofText, String.toList_append] at hs ⊢
  have hall : (ofChars 0 s.toList).tokens = (ofChars 0 s.toList).tokens ++ [] :=
    (List.append_nil _).symm
  obtain ⟨left, right, hcs, hcut⟩ := exists_cut hall
  have hself := hcut.reads right (.refl right)
  rw [← hcs] at hself
  have hright : (ofChars (Text.byteLength left) right).tokens = [] := by
    have htokens := congrArg TokenStream.tokens hself
    simpa [prepend] using htokens
  have hskip := skip_of_tokens_eq_nil hright (by rwa [hself] at hs)
  -- The line break may end a comment behind the last token.
  have hgap : Ignored.IsGap (right ++ ['\n']) := by
    intro tail
    rw [List.append_assoc]
    exact Ignored.skip_append_newline hskip tail
  have hread := hcut.reads (right ++ '\n' :: t.toList) (Scan.alike_append_newline right _)
  have htext : s.toList ++ "\n".toList ++ t.toList = left ++ (right ++ '\n' :: t.toList) := by
    simp [hcs]
  have hsplit : right ++ '\n' :: t.toList = right ++ ['\n'] ++ t.toList := by simp
  rw [htext, hread, hsplit, ofChars_gap _ hgap, kinds_prepend, isComplete_prepend,
    (kinds_ofChars _ t.toList).1, (kinds_ofChars _ t.toList).2]
  exact ⟨rfl, rfl⟩

end TokenStream

end GraphQLText
