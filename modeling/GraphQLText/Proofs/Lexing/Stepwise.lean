import GraphQLText.Proofs.Lexing.Insert
import GraphQLText.Token.Lexeme

/-!
# One token after the other

A source is read step by step: a gap is skipped, and then comes a token or something broken, unless
the source is at its end. What holds for each step holds for the whole of a source.
-/

namespace GraphQLText

set_option autoImplicit false

namespace Ignored

/-- The text consists of ignored characters and of comments that run up to the next line end, which
may stand in the text behind. At the end of a source a comment needs none. -/
inductive Fills : List Char → List Char → Prop
  | nil {behind : List Char} : Fills [] behind
  | char {c : Char} {cs behind : List Char} : isIgnored c = true → Fills cs behind →
      Fills (c :: cs) behind
  | comment {body cs behind : List Char} : (∀ d ∈ body, isLineEnd d = false) →
      (∀ d ∈ (cs ++ behind).head?, isLineEnd d = true) → Fills cs behind →
        Fills ('#' :: (body ++ cs)) behind

theorem isIgnored_of_isLineEnd {c : Char} (h : isLineEnd c = true) : isIgnored c = true := by
  simp only [isLineEnd, Bool.or_eq_true, beq_iff_eq] at h
  rcases h with rfl | rfl <;> decide

/-- What is skipped is a gap. If the text begins in a comment, that one is skipped first. -/
theorem exists_fills (cs : List Char) :
    (∃ gap, cs = gap ++ skip false cs ∧ Fills gap (skip false cs)) ∧
      ∃ body gap, cs = body ++ (gap ++ skip true cs) ∧ (∀ d ∈ body, isLineEnd d = false) ∧
        (∀ d ∈ (gap ++ skip true cs).head?, isLineEnd d = true) ∧ Fills gap (skip true cs) := by
  induction cs with
  | nil => exact ⟨⟨[], rfl, .nil⟩, [], [], rfl, by simp, by simp [skip], .nil⟩
  | cons c cs ih =>
    obtain ⟨⟨gap, hgap, hfills⟩, body, gap', hcomment, hbody, hend, hfills'⟩ := ih
    constructor
    · rw [skip]
      split
      · next hc => exact ⟨c :: gap, congrArg (c :: ·) hgap, .char hc hfills⟩
      · split
        · next hc =>
          refine ⟨'#' :: (body ++ gap'), ?_, .comment hbody hend hfills'⟩
          rw [hc, List.cons_append, List.append_assoc, ← hcomment]
        · exact ⟨[], rfl, .nil⟩
    · rw [skip]
      split
      · next hc =>
        refine ⟨[], c :: gap, congrArg (c :: ·) hgap, by simp, by simp [hc], ?_⟩
        exact .char (isIgnored_of_isLineEnd hc) hfills
      · next hc =>
        refine ⟨c :: body, gap', congrArg (c :: ·) hcomment, ?_, hend, hfills'⟩
        intro d hd
        rcases List.mem_cons.mp hd with rfl | hd
        · simpa using hc
        · exact hbody d hd

end Ignored

/-- What stands at a place where reading looks for a token: the gap before it, its text and the text
behind it. -/
structure Step (gap : List Char) (c : Char) (text rest : List Char) : Prop where
  fills : Ignored.Fills gap (c :: text ++ rest)
  skips : Ignored.skip false (gap ++ (c :: text ++ rest)) = c :: text ++ rest

namespace TokenStream

/-- To show something of every text at every offset, it is enough to show that it holds of gaps, and
that it holds of a text with a token or something broken before it. -/
@[elab_as_elim]
theorem stepwise {motive : Nat → List Char → Prop}
    (ended : ∀ offset gap, Ignored.Fills gap [] → Ignored.skip false gap = [] → motive offset gap)
    (token : ∀ offset gap c text rest t, Step gap c text rest →
      Scan.token? c (text ++ rest) = .token t rest →
      motive (offset + Text.byteLength gap + Text.byteLength (c :: text)) rest →
      motive offset (gap ++ (c :: text ++ rest)))
    (broken : ∀ offset gap c text rest fault lexeme, Step gap c text rest →
      Scan.token? c (text ++ rest) = .broken fault (c :: text) lexeme →
      motive (offset + Text.byteLength gap + Text.byteLength (c :: text)) rest →
      motive offset (gap ++ (c :: text ++ rest)))
    (offset : Nat) (cs : List Char) : motive offset cs := by
  induction hn : cs.length using Nat.strongRecOn generalizing offset cs with
  | ind n ih =>
    obtain ⟨gap, hgap, hfills⟩ := (Ignored.exists_fills cs).1
    generalize hskip : Ignored.skip false cs = ahead at hgap hfills
    subst hgap
    cases ahead with
    | nil =>
      rw [List.append_nil] at hskip ⊢
      exact ended offset gap hfills hskip
    | cons c tail =>
      have hshorter : ∀ text rest : List Char, tail = text ++ rest → rest.length < n := by
        rintro text rest rfl
        rw [← hn, List.length_append, List.length_cons, List.length_append]
        omega
      cases hs : Scan.token? c tail with
      | token t rest =>
        obtain ⟨text, rfl, -⟩ := Scan.spells_of_token? hs
        exact token offset gap c text rest t ⟨hfills, hskip⟩ hs
          (ih _ (hshorter text rest rfl) _ rest rfl)
      | broken fault text lexeme =>
        obtain ⟨more, rest, rfl, rfl⟩ := Scan.exists_rest_of_broken hs
        exact broken offset gap c more rest fault lexeme ⟨hfills, hskip⟩ hs
          (ih _ (hshorter more rest rfl) _ rest rfl)

section Steps

variable (offset : Nat) {gap text rest lexeme : List Char} {c : Char} {t : Token} {fault : Fault}

theorem ofChars_ended (h : Ignored.skip false gap = []) :
    ofChars offset gap = ⟨[], .complete (offset + Text.byteLength gap)⟩ := by
  simp [ofChars_eq, h, Text.consumed]

theorem ofChars_token (h : Step gap c text rest)
    (hs : Scan.token? c (text ++ rest) = .token t rest) :
    ofChars offset (gap ++ (c :: text ++ rest)) =
      cons ⟨t, String.ofList (c :: text), offset + Text.byteLength gap⟩
        (ofChars (offset + Text.byteLength gap + Text.byteLength (c :: text)) rest) := by
  rw [ofChars_eq, h.skips, List.cons_append]
  simp only [Text.consumed_append, hs]
  rw [← List.cons_append, Text.consumed_append]

theorem ofChars_broken (h : Step gap c text rest)
    (hs : Scan.token? c (text ++ rest) = .broken fault (c :: text) lexeme) :
    ofChars offset (gap ++ (c :: text ++ rest)) =
      ⟨[], .broken fault (String.ofList (c :: text)) (String.ofList lexeme)
        (offset + Text.byteLength gap)⟩ := by
  rw [ofChars_eq, h.skips, List.cons_append]
  simp only [Text.consumed_append, hs]

theorem brokenOfChars_eq (cs : List Char) :
    brokenOfChars offset cs =
      match Ignored.skip false cs with
      | [] => []
      | c :: tail =>
        let start := offset + Text.byteLength (Text.consumed cs (c :: tail))
        match Scan.token? c tail with
        | .token _ rest =>
          brokenOfChars (start + Text.byteLength (Text.consumed (c :: tail) rest)) rest
        | .broken fault text lexeme =>
          ⟨fault, String.ofList text, String.ofList lexeme, start⟩ ::
            brokenOfChars (start + Text.byteLength text) ((c :: tail).drop text.length) := by
  rw [brokenOfChars]
  simp only
  split
  · next h => simp only [h]
  · next h =>
    simp only [h]
    split
    · next hs => simp only [hs]
    · next hs => simp only [hs]

theorem brokenOfChars_ended (h : Ignored.skip false gap = []) : brokenOfChars offset gap = [] := by
  rw [brokenOfChars_eq, h]

theorem brokenOfChars_token (h : Step gap c text rest)
    (hs : Scan.token? c (text ++ rest) = .token t rest) :
    brokenOfChars offset (gap ++ (c :: text ++ rest)) =
      brokenOfChars (offset + Text.byteLength gap + Text.byteLength (c :: text)) rest := by
  rw [brokenOfChars_eq, h.skips, List.cons_append]
  simp only [Text.consumed_append, hs]
  rw [← List.cons_append, Text.consumed_append]

theorem brokenOfChars_broken (h : Step gap c text rest)
    (hs : Scan.token? c (text ++ rest) = .broken fault (c :: text) lexeme) :
    brokenOfChars offset (gap ++ (c :: text ++ rest)) =
      ⟨fault, String.ofList (c :: text), String.ofList lexeme, offset + Text.byteLength gap⟩ ::
        brokenOfChars (offset + Text.byteLength gap + Text.byteLength (c :: text)) rest := by
  rw [brokenOfChars_eq, h.skips, List.cons_append]
  simp only [Text.consumed_append, hs]
  rw [← List.cons_append, List.drop_left]

theorem lexemesOfChars_eq (cs : List Char) :
    lexemesOfChars offset cs =
      match Ignored.skip false cs with
      | [] => []
      | c :: tail =>
        let start := offset + Text.byteLength (Text.consumed cs (c :: tail))
        match Scan.token? c tail with
        | .token token rest =>
          let text := Text.consumed (c :: tail) rest
          .token ⟨token, String.ofList text, start⟩ ::
            lexemesOfChars (start + Text.byteLength text) rest
        | .broken fault text lexeme =>
          .broken ⟨fault, String.ofList text, String.ofList lexeme, start⟩ ::
            lexemesOfChars (start + Text.byteLength text) ((c :: tail).drop text.length) := by
  rw [lexemesOfChars]
  simp only
  split
  · next h => simp only [h]
  · next h =>
    simp only [h]
    split
    · next hs => simp only [hs]
    · next hs => simp only [hs]

theorem lexemesOfChars_ended (h : Ignored.skip false gap = []) : lexemesOfChars offset gap = [] := by
  rw [lexemesOfChars_eq, h]

theorem lexemesOfChars_token (h : Step gap c text rest)
    (hs : Scan.token? c (text ++ rest) = .token t rest) :
    lexemesOfChars offset (gap ++ (c :: text ++ rest)) =
      .token ⟨t, String.ofList (c :: text), offset + Text.byteLength gap⟩ ::
        lexemesOfChars (offset + Text.byteLength gap + Text.byteLength (c :: text)) rest := by
  rw [lexemesOfChars_eq, h.skips, List.cons_append]
  simp only [Text.consumed_append, hs]
  rw [← List.cons_append, Text.consumed_append]

theorem lexemesOfChars_broken (h : Step gap c text rest)
    (hs : Scan.token? c (text ++ rest) = .broken fault (c :: text) lexeme) :
    lexemesOfChars offset (gap ++ (c :: text ++ rest)) =
      .broken ⟨fault, String.ofList (c :: text), String.ofList lexeme, offset + Text.byteLength gap⟩ ::
        lexemesOfChars (offset + Text.byteLength gap + Text.byteLength (c :: text)) rest := by
  rw [lexemesOfChars_eq, h.skips, List.cons_append]
  simp only [Text.consumed_append, hs]
  rw [← List.cons_append, List.drop_left]

end Steps

/-- A lexeme is what reading finds where the lexeme begins. -/
theorem exists_of_mem_lexemesOfChars {offset : Nat} {cs : List Char} {l : Lexeme}
    (h : l ∈ lexemesOfChars offset cs) :
    ∃ before c text rest, cs = before ++ (c :: text ++ rest) ∧
      ((∃ t, Scan.token? c (text ++ rest) = .token t rest ∧
          l = .token ⟨t, String.ofList (c :: text), offset + Text.byteLength before⟩) ∨
        ∃ fault lexeme, Scan.token? c (text ++ rest) = .broken fault (c :: text) lexeme ∧
          l = .broken ⟨fault, String.ofList (c :: text), String.ofList lexeme,
            offset + Text.byteLength before⟩) := by
  induction offset, cs using stepwise with
  | ended offset gap _ hend =>
    rw [lexemesOfChars_ended offset hend] at h
    cases h
  | token offset gap c text rest t hstep hs ih =>
    rw [lexemesOfChars_token offset hstep hs] at h
    rcases List.mem_cons.mp h with rfl | h
    · exact ⟨gap, c, text, rest, rfl, .inl ⟨t, hs, rfl⟩⟩
    · obtain ⟨before, d, text', rest', rfl, hfound⟩ := ih h
      refine ⟨gap ++ (c :: text) ++ before, d, text', rest', by simp, ?_⟩
      simpa only [Text.byteLength_append, Nat.add_assoc] using hfound
  | broken offset gap c text rest fault lexeme hstep hs ih =>
    rw [lexemesOfChars_broken offset hstep hs] at h
    rcases List.mem_cons.mp h with rfl | h
    · exact ⟨gap, c, text, rest, rfl, .inr ⟨fault, lexeme, hs, rfl⟩⟩
    · obtain ⟨before, d, text', rest', rfl, hfound⟩ := ih h
      refine ⟨gap ++ (c :: text) ++ before, d, text', rest', by simp, ?_⟩
      simpa only [Text.byteLength_append, Nat.add_assoc] using hfound

theorem mem_brokenOfChars_iff {offset : Nat} {cs : List Char} {b : BrokenToken} :
    b ∈ brokenOfChars offset cs ↔ .broken b ∈ lexemesOfChars offset cs := by
  induction offset, cs using stepwise with
  | ended offset gap _ hend => simp [brokenOfChars_ended offset hend, lexemesOfChars_ended offset hend]
  | token offset gap c text rest t hstep hs ih =>
    rw [brokenOfChars_token offset hstep hs, lexemesOfChars_token offset hstep hs, ih]
    simp
  | broken offset gap c text rest fault lexeme hstep hs ih =>
    rw [brokenOfChars_broken offset hstep hs, lexemesOfChars_broken offset hstep hs, List.mem_cons,
      List.mem_cons, ih, Lexeme.broken.injEq]

/-- The lexemes of a text are the tokens of its stream, what broke the stream off, and what comes
behind that. -/
theorem exists_lexemesOfChars_eq_append (offset : Nat) (cs : List Char) :
    ∃ later, lexemesOfChars offset cs = (ofChars offset cs).tokens.map .token ++ later ∧
      match (ofChars offset cs).ending with
      | .complete stop => stop = offset + Text.byteLength cs ∧ later = []
      | .broken fault text lexeme start =>
        ∃ more, later = .broken ⟨fault, text, lexeme, start⟩ :: more := by
  induction offset, cs using stepwise with
  | ended offset gap _ hend =>
    exact ⟨[], by simp [lexemesOfChars_ended offset hend, ofChars_ended offset hend],
      by simp [ofChars_ended offset hend]⟩
  | token offset gap c text rest t hstep hs ih =>
    obtain ⟨later, hlexemes, hend⟩ := ih
    rw [lexemesOfChars_token offset hstep hs, ofChars_token offset hstep hs]
    refine ⟨later, congrArg (_ :: ·) hlexemes, ?_⟩
    simp only [cons]
    split at hend
    · exact ⟨by rw [hend.1]; simp [Nat.add_assoc], hend.2⟩
    · exact hend
  | broken offset gap c text rest fault lexeme hstep hs _ =>
    rw [ofChars_broken offset hstep hs, lexemesOfChars_broken offset hstep hs]
    exact ⟨_, rfl, _, rfl⟩

/-- The tokens of a stream are the lexemes up to the first broken one. -/
theorem exists_lexemesOfChars_eq (offset : Nat) (cs : List Char) :
    ∃ later, lexemesOfChars offset cs = (ofChars offset cs).tokens.map .token ++ later ∧
      ((ofChars offset cs).isComplete = true → later = []) := by
  obtain ⟨later, hlexemes, hend⟩ := exists_lexemesOfChars_eq_append offset cs
  refine ⟨later, hlexemes, fun hcomplete => ?_⟩
  unfold isComplete at hcomplete
  split at hend
  · exact hend.2
  · next hbroken =>
    rw [hbroken] at hcomplete
    cases hcomplete

end TokenStream

end GraphQLText
