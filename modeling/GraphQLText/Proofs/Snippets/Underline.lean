import GraphQLText.Proofs.Lexing.StringBody
import GraphQLText.Proofs.Locality.Settled
import GraphQLText.Proofs.Snippets.Rows

/-!
# Carets stand below the lexeme

The snippet of a report ends with the line that the lexeme stands on and a row of carets. There is one
below each character of the lexeme, from its first one on, and none below anything else, unless the
lexeme is a broken number: that is shown with all that it runs into, and only the number has carets.
-/

namespace GraphQLText

set_option autoImplicit false

open Reader

namespace Snippet

/-- The last rows of the snippet are the line of the location, with the whole lexeme from the column
on, and as many carets as given, the first one in the column. Carriage returns at the end of the line
are left out. -/
inductive Underlines (source context : List Char) (location : Location) (lexeme : List Char)
    (count : Nat) : Prop
  | intro {above : List (List Char)} {before after returns : List Char}
      (rows : Text.lines context = above ++
        [" ".toList ++ (toString location.line).toList ++ " | ".toList ++ (before ++ lexeme ++ after),
          List.replicate ((toString location.line).length + 1) ' ' ++ " | ".toList ++
            List.replicate (location.column - 1) ' ' ++ List.replicate count '^'])
      (line : (Text.lines source)[location.line - 1]? = some (before ++ lexeme ++ after ++ returns))
      (trimmed : ∀ c ∈ returns, c = '\r')
      (column : before.length = location.column - 1)

/-- A piece of a source without a line feed is underlined by the snippet of its span. What else of the
line is taken for the lexeme has no carets. -/
theorem underlines_render (before : List Char) {marked : List Char} (more : List Char)
    (hne : marked ≠ []) (hmarked : '\n' ∉ marked) (hmore : '\n' ∉ more)
    (hfirm : IsFirm (marked ++ more)) (rest : List Char) :
    Underlines (before ++ (marked ++ (more ++ rest)))
      (render (before ++ (marked ++ (more ++ rest)))
        ⟨Text.byteLength before, Text.byteLength (before ++ marked)⟩).toList
      (Location.ofOffset (before ++ (marked ++ (more ++ rest))) (Text.byteLength before))
      (marked ++ more) marked.length := by
  obtain ⟨head, down, hrest⟩ := List.exists_cons_of_ne_nil (Text.lines_ne_nil rest)
  obtain ⟨above, width, rfl, hline, hrows⟩ :=
    exists_rows before hmarked (Text.lines_append_of_not_mem hmore hrest)
  obtain ⟨returns, hhead, hreturns⟩ := exists_returns head
  have hassoc : Text.lastLine before ++ (marked ++ (more ++ head)) =
      Text.lastLine before ++ (marked ++ more) ++ head := by
    simp only [List.append_assoc]
  have hpos : max 1 marked.length = marked.length :=
    Nat.max_eq_right (List.length_pos_iff.mpr hne)
  have hwhole : Text.lastLine before ++ (marked ++ more) ≠ [] := by simp [hne]
  have hend := hfirm.append_left (by simp [hne]) (Text.lastLine before)
  rw [hassoc, trimReturns_append hwhole hend, hpos, gutter_length] at hrows
  rw [Location.ofOffset_byteLength]
  refine @Underlines.intro _ _ _ _ _ above (Text.lastLine before) (trimReturns head) returns ?_ ?_
    hreturns rfl
  · have hsome : rows (before ++ (marked ++ (more ++ rest)))
        ⟨Text.byteLength before, Text.byteLength (before ++ marked)⟩ ≠ [] := by
      rw [hrows]
      simp
    rw [render, String.toList_ofList, Text.lines_unlines hsome (newline_not_mem_rows _ _), hrows]
    rfl
  · simp only [Nat.add_sub_cancel]
    rw [hline, hassoc, List.append_assoc _ (trimReturns head), ← hhead]

end Snippet

namespace Number

/-- A number is made of digits, signs, points and letters. -/
theorem return_not_mem {cs : List Char} {n : Longest} (h : longest? cs = some n) : '\r' ∉ n.text := by
  have hdigits : ∀ {ds : List Char}, AllDigits ds → '\r' ∉ ds :=
    fun hall hmem => absurd (hall _ hmem) (by decide)
  have hnatural : ∀ {ds : List Char}, IsNatural ds → '\r' ∉ ds := by
    rintro ds (_ | ⟨hd, -, hall⟩)
    · decide
    · exact hdigits (hall.cons hd)
  have hwhole : ∀ {ds : List Char}, IsWhole ds → '\r' ∉ ds := by
    rintro ds (hds | hds)
    · exact hnatural hds
    · simpa using hnatural hds
  have hform := form_of_longest? h
  generalize n.text = text at hform
  split at hform
  · cases hform with
    | intro hw hf he _ =>
      simp only [List.mem_append, not_or]
      refine ⟨⟨hwhole hw, ?_⟩, ?_⟩
      · rcases hf with rfl | ⟨hd, hall⟩
        · simp
        · simpa using hdigits (hall.cons hd)
      · rcases he with rfl | ⟨he, hs, hd, hall⟩
        · simp
        · have hrest := hdigits (hall.cons hd)
          rcases he with rfl | rfl <;> rcases hs with rfl | rfl | rfl <;> simpa using hrest
  · exact hwhole hform

theorem ne_return_of_isTail {c : Char} (h : isTail c = true) : c ≠ '\r' := by
  rintro rfl
  exact absurd h (by decide)

end Number

namespace Scan

open Snippet

theorem isFirm_of_string {cs : List Char} {t : Token} (h : string cs = .token t []) :
    IsFirm ('"' :: cs) := by
  have hmark : ∀ before : List Char, IsFirm (before ++ ['"']) :=
    fun before => .append_left (by simp [IsFirm]) (by simp) before
  unfold string at h
  split at h
  · next body =>
    split at h
    · next raw rest hread =>
      simp only [token.injEq] at h
      obtain ⟨-, rfl⟩ := h
      obtain ⟨x, rfl, -⟩ := BlockString.read_local hread
      simpa using hmark ('"' :: '"' :: '"' :: x ++ ['"', '"'])
    · cases h
  · split at h
    · next value rest hread =>
      simp only [token.injEq] at h
      obtain ⟨-, rfl⟩ := h
      rw [QuotedString.read_eq_decode] at hread
      obtain ⟨body, rfl, -⟩ := QuotedString.decode_eq_ok_iff.mp hread
      exact hmark ('"' :: body)
    · cases h

/-- No token ends with a carriage return. -/
theorem isFirm_of_token? {c : Char} {cs : List Char} {t : Token} (h : token? c cs = .token t []) :
    IsFirm (c :: cs) := by
  -- only in a string could there be a carriage return, and a string ends with its mark
  have hreturn : Lead.ofChar '\r' = .other := by decide
  unfold token? at h
  split at h
  · next p hlead =>
    simp only [token.injEq] at h
    obtain ⟨-, rfl⟩ := h
    refine .of_not_mem fun hmem => ?_
    rw [← List.mem_singleton.mp hmem, hreturn] at hlead
    cases hlead
  · next hlead =>
    obtain rfl := Lead.eq_of_ofChar.1 hlead
    unfold points at h
    split at h
    · simp only [token.injEq] at h
      obtain ⟨-, rfl⟩ := h
      simp [IsFirm]
    · cases h
  · next hlead =>
    rw [Lead.eq_of_ofChar.2 hlead]
    exact isFirm_of_string h
  · unfold number at h
    split at h
    · next n hn =>
      split at h
      · simp only [token.injEq] at h
        have happ := Number.longest?_append hn
        rw [h.2, List.append_nil] at happ
        exact .of_not_mem (happ ▸ Number.return_not_mem hn)
      · cases h
    · cases h
  · next hlead =>
    simp only [name, token.injEq, List.dropWhile_eq_nil_iff] at h
    refine .of_not_mem fun hmem => ?_
    rcases List.mem_cons.mp hmem with rfl | hmem
    · rw [hreturn] at hlead
      cases hlead
    · exact absurd (h.2 _ hmem) (by decide)
  · cases h

theorem isFirm_of_spells {text rest : List Char} {t : Token} (h : Spells text t rest) :
    IsFirm text := by
  obtain ⟨c, tail, htext, -, hs⟩ := h [] fun d hd => by simp at hd
  rw [List.append_nil] at htext
  exact htext ▸ isFirm_of_token? hs

theorem return_not_mem_of_string {cs text lexeme : List Char} {f : Fault}
    (h : string cs = .broken f text lexeme) : '\r' ∉ lexeme := by
  unfold string at h
  split at h
  · split at h
    · cases h
    · simp only [broken.injEq] at h
      rw [← h.2.2]
      decide
  · split at h
    · cases h
    · simp only [broken.injEq] at h
      have hplain : '\r' ∉ QuotedString.brokenPart cs := fun hmem =>
        absurd (QuotedString.isPlain_of_mem_brokenPart hmem) (by decide)
      rw [← h.2.2]
      simpa using hplain

theorem return_not_mem_of_number {c : Char} {cs text lexeme : List Char} {f : Fault}
    (hc : c ≠ '\r') (h : number c cs = .broken f text lexeme) : '\r' ∉ lexeme := by
  have htail : ∀ rest : List Char, '\r' ∉ rest.takeWhile Number.isTail := fun rest hmem =>
    Number.ne_return_of_isTail (List.all_eq_true.mp List.all_takeWhile _ hmem) rfl
  unfold number at h
  split at h
  · next n hn =>
    split at h
    · cases h
    · simp only [broken.injEq] at h
      rw [← h.2.2, List.mem_append, not_or]
      exact ⟨Number.return_not_mem hn, htail n.rest⟩
  · simp only [broken.injEq] at h
    rw [← h.2.2, List.mem_cons, not_or]
    exact ⟨hc.symm, htail cs⟩

theorem return_not_mem_of_broken {c : Char} {cs text lexeme : List Char} {f : Fault}
    (hc : c ≠ '\r') (h : token? c cs = .broken f text lexeme) : '\r' ∉ lexeme := by
  unfold token? at h
  split at h
  · cases h
  · unfold points at h
    split at h
    · cases h
    · simp only [broken.injEq] at h
      rw [← h.2.2]
      decide
  · exact return_not_mem_of_string h
  · exact return_not_mem_of_number hc h
  · cases h
  · simp only [broken.injEq] at h
    rw [← h.2.2, List.mem_singleton]
    exact hc.symm

/-- What a report shows of a broken token begins with the text of the token and goes on in the source.
Only a number is shown with more than itself. -/
theorem exists_more_of_broken {c : Char} {cs text lexeme : List Char} {f : Fault}
    (h : token? c cs = .broken f text lexeme) :
    ∃ more rest, lexeme = text ++ more ∧ c :: cs = text ++ (more ++ rest) ∧
      (more = [] ∨ f = .invalidNumber) := by
  obtain ⟨behind, rest, rfl, rfl⟩ := exists_rest_of_broken h
  have hlexeme := lexeme_of_broken h (List.cons_append ..).symm
  by_cases hc : c = '-' ∨ c.isDigit
  · rw [if_pos hc] at hlexeme
    have hmark : c ≠ '"' := by
      rintro rfl
      exact absurd hc (by decide)
    have hfault := fault_of_broken hmark h
    rw [if_pos hc] at hfault
    refine ⟨_, rest.dropWhile Number.isTail, hlexeme, ?_, .inr hfault⟩
    rw [List.takeWhile_append_dropWhile, List.cons_append]
  · rw [if_neg hc] at hlexeme
    exact ⟨[], rest, by rw [hlexeme, List.append_nil], rfl, .inl rfl⟩

end Scan

theorem Ignored.isIgnored_of_skip {comment : Bool} {cs tail : List Char} {c : Char}
    (h : skip comment cs = c :: tail) : isIgnored c = false := by
  induction cs generalizing comment with
  | nil => cases comment <;> cases h
  | cons d cs ih =>
    cases comment with
    | true =>
      rw [skip] at h
      split at h <;> exact ih h
    | false =>
      rw [skip] at h
      split at h
      · exact ih h
      · next hd =>
        split at h
        · exact ih h
        · obtain ⟨rfl, -⟩ := List.cons.inj h
          simpa using hd

/-- The text before the place where a stream breaks off, and the character that it breaks off at. -/
theorem TokenStream.exists_of_ending {offset start : Nat} {cs : List Char} {f : Fault}
    {text lexeme : String} (h : (ofChars offset cs).ending = .broken f text lexeme start) :
    ∃ before c tail, cs = before ++ c :: tail ∧ start = offset + Text.byteLength before ∧
      Ignored.isIgnored c = false ∧
      Scan.token? c tail = .broken f text.toList lexeme.toList := by
  induction offset, cs using stepwise with
  | ended offset gap _ hend =>
    rw [ofChars_ended offset hend] at h
    cases h
  | token offset gap c text' rest t hstep hs ih =>
    rw [ofChars_token offset hstep hs] at h
    obtain ⟨before, d, tail, rfl, rfl, hd, hbroken⟩ := ih h
    refine ⟨gap ++ (c :: text') ++ before, d, tail, by simp, ?_, hd, hbroken⟩
    simp only [Text.byteLength_append]
    omega
  | broken offset gap c text' rest fault lexeme' hstep hs _ =>
    rw [ofChars_broken offset hstep hs] at h
    obtain ⟨rfl, rfl, rfl, rfl⟩ := Ending.broken.inj h
    refine ⟨gap, c, text' ++ rest, rfl, rfl, Ignored.isIgnored_of_skip hstep.skips, ?_⟩
    rw [String.toList_ofList, String.toList_ofList, hs]

namespace Failure

open Snippet

variable {f : Failure} {source : String}

/-- The snippet of a report at a token has carets below the token. -/
theorem underlines_token {before after : List PlacedToken} {t : PlacedToken}
    (hplace : f.place.tokens = t :: after)
    (htokens : (TokenStream.ofText source).tokens = before ++ t :: after)
    (hline : '\n' ∉ t.text.toList) :
    Underlines source.toList (render source.toList f.place.nextSpan).toList
      (Location.ofOffset source.toList f.place.nextSpan.start) t.text.toList t.text.length := by
  obtain ⟨blank, text, rest, hsource, -, hspells, ht, hspan⟩ :=
    TokenStream.exists_of_tokens_eq_append htokens
  have hnext : f.place.nextSpan = t.span := by rw [Cursor.nextSpan, hplace]
  have htext : t.text.toList = text := by rw [ht, String.toList_ofList]
  rw [htext] at hline
  have hfirm := Scan.isFirm_of_spells hspells
  have hne := TokenStream.ne_nil_of_spells hspells
  have hunder := underlines_render blank [] hne hline (by simp)
    (by rwa [List.append_nil]) rest
  rw [hnext, hspan, hsource, htext, ← String.length_toList, htext]
  rwa [List.nil_append, List.append_nil] at hunder

/-- The snippet of a report at a broken token has carets below that, and none below what else the
report shows of it. -/
theorem underlines_broken {fault : Fault} {text lexeme : String} {start : Nat}
    (hplace : f.place.tokens = [])
    (hbroken : f.place.ending = .broken fault text lexeme start)
    (hending : f.place.ending = (TokenStream.ofText source).ending)
    (hline : '\n' ∉ lexeme.toList) :
    Underlines source.toList (render source.toList f.place.nextSpan).toList
        (Location.ofOffset source.toList f.place.nextSpan.start) lexeme.toList text.length ∧
      (text = lexeme ∨ fault = .invalidNumber) := by
  obtain ⟨before, c, tail, hsource, hstart, hc, hs⟩ :=
    TokenStream.exists_of_ending (hending.symm.trans hbroken)
  obtain ⟨more, rest, hlexeme, htext, hmore⟩ := Scan.exists_more_of_broken hs
  obtain ⟨behind, -, hne, -⟩ := Scan.exists_rest_of_broken hs
  have hreturn : c ≠ '\r' := by
    rintro rfl
    exact absurd hc (by decide)
  have hfirm := IsFirm.of_not_mem (Scan.return_not_mem_of_broken hreturn hs)
  have hnext : f.place.nextSpan =
      ⟨Text.byteLength before, Text.byteLength (before ++ text.toList)⟩ := by
    rw [Cursor.nextSpan, hplace, hbroken, Text.byteLength_append]
    simp [Ending.span, hstart]
  rw [hlexeme] at hfirm hline
  rw [List.mem_append, not_or] at hline
  constructor
  · rw [hnext, hsource, htext, hlexeme, ← String.length_toList]
    exact underlines_render _ _ (by simp [hne]) hline.1 hline.2 hfirm rest
  · refine hmore.imp_left fun hnil => ?_
    rw [hnil, List.append_nil] at hlexeme
    exact (String.toList_inj.mp hlexeme).symm

end Failure

/-- Where a source is turned down for a lexeme on one line, the snippet underlines it from its first
character on. There is a caret for each of its characters, but for a broken number only for those of
the number and not for what it runs into. -/
theorem Production.underlines_of_parse {p : Production} {source lexeme : String} {e : Diagnostic}
    (h : p.parse source = .error e) (hlexeme : e.lexeme = some lexeme)
    (hline : '\n' ∉ lexeme.toList) :
    ∃ location context count, e.location = some location ∧ e.context = some context ∧
      Snippet.Underlines source.toList context.toList location lexeme.toList count ∧
      (count = lexeme.length ∨
        ∃ text start, (TokenStream.ofText source).ending = .broken .invalidNumber text lexeme start ∧
          count = text.length) := by
  obtain ⟨f, hf, rfl⟩ := parse_eq_error.mp h
  obtain ⟨⟨before, htokens⟩, hending⟩ := exists_tokens_of_run hf
  simp only [Failure.diagnostic] at hlexeme
  cases hplace : f.place.tokens with
  | cons t after =>
    rw [hplace] at htokens
    simp only [Failure.lexeme?, hplace, Option.some.injEq] at hlexeme
    subst hlexeme
    exact ⟨_, _, _, rfl, rfl, Failure.underlines_token hplace htokens hline, .inl rfl⟩
  | nil =>
    cases hbroken : f.place.ending with
    | complete offset => simp [Failure.lexeme?, hplace, hbroken] at hlexeme
    | broken fault text shown start =>
      simp only [Failure.lexeme?, hplace, hbroken, Option.some.injEq] at hlexeme
      subst hlexeme
      obtain ⟨hunder, hshown⟩ := Failure.underlines_broken hplace hbroken hending hline
      refine ⟨_, _, _, rfl, rfl, hunder, ?_⟩
      rcases hshown with rfl | rfl
      · exact .inl rfl
      · exact .inr ⟨text, start, hending.symm.trans hbroken, rfl⟩

def unclosedList : Diagnostic where
  kind := .grammatical
  message := "Expected List Type, found \"Bc\""
  lexeme := some "Bc"
  location := some ⟨9, 2, 5⟩
  context := some " 1 | # é\n 2 | [A, Bc]\n   |     ^^"

theorem Production.underlines_of_parse_unclosedList :
    Production.parse .type "# é\n[A, Bc]\r" = .error unclosedList ∧
      unclosedList.lexeme = some "Bc" ∧ '\n' ∉ "Bc".toList ∧
      ∃ location context count, unclosedList.location = some location ∧
        unclosedList.context = some context ∧
        Snippet.Underlines "# é\n[A, Bc]\r".toList context.toList location "Bc".toList count ∧
        (count = "Bc".length ∨
          ∃ text start, (TokenStream.ofText "# é\n[A, Bc]\r").ending =
            .broken .invalidNumber text "Bc" start ∧ count = text.length) := by
  have hread : Production.parse .type "# é\n[A, Bc]\r" = .error unclosedList := by
    decide +kernel
  exact ⟨hread, rfl, by decide, underlines_of_parse hread rfl (by decide)⟩

def leadingZero : Diagnostic where
  kind := .lexical
  message := "Invalid number \"0123\""
  lexeme := some "0123"
  location := some ⟨0, 1, 1⟩
  context := some " 1 | 0123\n   | ^"

/-- Of a number with a leading zero, only the zero is underlined. -/
theorem Production.not_underlines_leadingZero :
    Production.parse .intValue "0123" = .error leadingZero ∧ leadingZero.lexeme = some "0123" ∧
      '\n' ∉ "0123".toList ∧
      ¬ ∃ location context, leadingZero.location = some location ∧
        leadingZero.context = some context ∧
        Snippet.Underlines "0123".toList context.toList location "0123".toList "0123".length := by
  refine ⟨by decide +kernel, rfl, by decide, ?_⟩
  rintro ⟨location, context, -, ⟨⟩, hunder⟩
  cases hunder with
  | intro rows line trimmed column =>
    have hlines : Text.lines " 1 | 0123\n   | ^".toList = [" 1 | 0123".toList, "   | ^".toList] := by
      decide
    have hlast := congrArg List.getLast? (hlines.symm.trans rows)
    rw [List.getLast?_append] at hlast
    have hcarets : 1 = "0123".length := by
      simpa [List.count_replicate] using congrArg (List.count '^') (Option.some.inj hlast)
    exact absurd hcarets (by decide)

end GraphQLText
