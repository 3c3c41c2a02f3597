import GraphQLText.Proofs.Reading.Document
import Mathlib

/-!
# Reading whole sources

A source whose text has no fault is read as a node exactly if its tokens are a phrase of the node.
-/

namespace GraphQLText

set_option autoImplicit false

namespace Cursor

theorem Takes.exists_tokens {c d : Cursor} {ws : Phrase} (h : c.Takes ws d) :
    ∃ ts, c.tokens = ts ++ d.tokens ∧ ts.map PlacedToken.token = ws.tokens ∧
      d.ending = c.ending ∧
        d.lastEnd = (ts.getLast?.map fun t => t.span.stop).getD c.lastEnd := by
  induction ws generalizing c with
  | nil =>
    obtain rfl := h
    exact ⟨[], rfl, rfl, rfl, rfl⟩
  | cons w ws ih =>
    obtain ⟨hn, hrest⟩ := h
    obtain ⟨tokens, ending, lastEnd⟩ := c
    cases tokens with
    | nil => exact absurd hn (by simp [next?])
    | cons t tokens =>
      have ht : t.token = w.token := by simpa [next?] using hn
      obtain ⟨ts, htokens, hkinds, hending, hlast⟩ := ih hrest
      refine ⟨t :: ts, congrArg (t :: ·) htokens, ?_, hending, ?_⟩
      · rw [List.map_cons, ht, hkinds, Phrase.tokens_cons]
      · rw [hlast, List.getLast?_cons]
        cases ts.getLast? <;> rfl

theorem Takes.kinds {c d : Cursor} {ws : Phrase} (h : c.Takes ws d) :
    c.tokens.map PlacedToken.token = ws.tokens ++ d.tokens.map PlacedToken.token ∧
      d.ending = c.ending := by
  obtain ⟨ts, htokens, hkinds, hending, -⟩ := h.exists_tokens
  rw [htokens, List.map_append, hkinds]
  exact ⟨rfl, hending⟩

theorem takes_of_kinds {ws : Phrase} {c : Cursor}
    (h : c.tokens.map PlacedToken.token = ws.tokens) :
    ∃ d, c.Takes ws d ∧ d.tokens = [] ∧ d.ending = c.ending := by
  induction ws generalizing c with
  | nil => exact ⟨c, rfl, List.map_eq_nil_iff.mp h, rfl⟩
  | cons w ws ih =>
    obtain ⟨tokens, ending, lastEnd⟩ := c
    cases tokens with
    | nil => exact absurd h (by simp)
    | cons t tokens =>
      simp only [List.map_cons, Phrase.tokens_cons, List.cons.injEq] at h
      obtain ⟨d, ht, hd, hending⟩ := ih (c := advance ⟨t :: tokens, ending, lastEnd⟩) h.2
      exact ⟨d, ⟨by simp [next?, h.1], ht⟩, hd, hending⟩

end Cursor

namespace Reader

variable {α : Type} {r : Reader α} {G : Phrase → α → Prop} {source : String}

theorem parse_eq_ok_iff {a : α} :
    r.parse source = .ok a ↔
      Ends r (Cursor.atStart (TokenStream.ofText source)) fun b d => b = a ∧ d.isComplete = true := by
  have hwhole : ∀ c, Ends (whole r) c (fun b _ => b = a) ↔
      Ends r c fun b d => b = a ∧ d.isComplete = true := by
    intro c
    have hend : ∀ d : Cursor, Ends endOfInput d (fun _ _ => True) ↔ d.isComplete = true := by
      intro d
      unfold Ends endOfInput
      split <;> simp_all
    simp only [whole, ends_bind, ends_pure]
    constructor
    · refine fun h => h.mono fun b d hd => ?_
      obtain ⟨_, _, hd, rfl⟩ := hd
      exact ⟨rfl, (hend d).mp ⟨_, _, hd, trivial⟩⟩
    · refine fun h => h.mono fun b d hd => ?_
      obtain ⟨_, _, he, _⟩ := (hend d).mpr hd.2
      exact ⟨_, _, he, hd.1⟩
  rw [← hwhole, parse, run, Ends]
  cases whole r (Cursor.atStart (TokenStream.ofText source)) with
  | ok p =>
    obtain ⟨b, d⟩ := p
    simp
  | error failure => simp

/-- Where a cursor comes to the end, it has taken all of the source. -/
theorem kinds_of_takes {ws : Phrase} {d : Cursor}
    (ht : (Cursor.atStart (TokenStream.ofText source)).Takes ws d) (hd : d.isComplete = true) :
    (TokenStream.ofText source).isComplete = true ∧
      ws.tokens = (TokenStream.ofText source).kinds := by
  obtain ⟨hkinds, hending⟩ := ht.kinds
  obtain ⟨tokens, ending, lastEnd⟩ := d
  cases tokens with
  | cons t tokens => simp [Cursor.isComplete] at hd
  | nil =>
    cases ending with
    | broken => simp [Cursor.isComplete] at hd
    | complete offset =>
      rw [List.map_nil, List.append_nil] at hkinds
      refine ⟨?_, hkinds.symm⟩
      rw [TokenStream.isComplete, show (TokenStream.ofText source).ending = _ from hending.symm]

theorem takes_of_kinds {ws : Phrase} (hs : (TokenStream.ofText source).isComplete = true)
    (hws : ws.tokens = (TokenStream.ofText source).kinds) :
    ∃ d, (Cursor.atStart (TokenStream.ofText source)).Takes ws d ∧ d.isComplete = true := by
  obtain ⟨d, ht, hd, hending⟩ :=
    Cursor.takes_of_kinds (c := Cursor.atStart (TokenStream.ofText source)) hws.symm
  refine ⟨d, ht, ?_⟩
  obtain ⟨offset, hcomplete⟩ := TokenStream.exists_ending hs
  rw [Cursor.isComplete, hd, hending, show (Cursor.atStart _).ending = _ from hcomplete]

/-- A source whose tokens are a phrase of a node is read as that node. -/
theorem Complete.parse [HasShape α] {bars : α → List Token} (h : Complete r G bars) {ws : Phrase}
    {a : α} (hg : G ws a) (hs : (TokenStream.ofText source).isComplete = true)
    (hws : ws.tokens = (TokenStream.ofText source).kinds) :
    ∃ b, r.parse source = .ok b ∧ bare b = bare a := by
  obtain ⟨d, ht, hd⟩ := takes_of_kinds hs hws
  obtain ⟨b, e, hb, rfl, hshape⟩ := h ws a _ d hg ht (Cursor.clear_of_isComplete hd _)
  exact ⟨b, parse_eq_ok_iff.mpr ⟨b, e, hb, rfl, hd⟩, hshape⟩

end Reader

namespace Document

variable {source : String}

/-- A document that is read is, token by token, a phrase of the source. -/
theorem derivesApart_of_parse {a : Document} (h : parse source = .ok a) :
    (TokenStream.ofText source).isComplete = true ∧
      ∃ ws, ws.tokens = (TokenStream.ofText source).kinds ∧ DerivesApart ws a := by
  obtain ⟨b, d, hr, rfl, hd⟩ := Reader.parse_eq_ok_iff.mp h
  obtain ⟨_, ws, hg, ht⟩ := sound_read _ b d hr
  obtain ⟨hs, hws⟩ := Reader.kinds_of_takes ht hd
  exact ⟨hs, ws, hws, hg⟩

/-- A source whose tokens are a phrase of a document is read as that document. -/
theorem parse_of_derivesApart {ws : Phrase} {a : Document} (hg : DerivesApart ws a)
    (hs : (TokenStream.ofText source).isComplete = true)
    (hws : ws.tokens = (TokenStream.ofText source).kinds) :
    ∃ b, parse source = .ok b ∧ bare b = bare a := by
  obtain ⟨d, ht, hd⟩ := Reader.takes_of_kinds hs hws
  obtain ⟨b, e, hb, rfl, hshape⟩ := complete_read hg ht hd
  exact ⟨b, Reader.parse_eq_ok_iff.mpr ⟨b, e, hb, rfl, hd⟩, hshape⟩

/-- A source is read where evaluation says so. -/
theorem exists_of_isSome {source : String} (h : (parse source).toOption.isSome = true) :
    ∃ d, parse source = .ok d := by
  cases hd : parse source with
  | error e => simp [hd, Except.toOption] at h
  | ok d => exact ⟨d, rfl⟩

/-- A source is read as a document, up to its spans, exactly if its text has no fault and its tokens
are a phrase of the document in which every brace belongs to the definition before it if it can. -/
theorem parse_iff_derivesApart (source : String) (a : Document) :
    (∃ d, parse source = .ok d ∧ bare d = bare a) ↔
      (TokenStream.ofText source).isComplete = true ∧
        ∃ ws b, ws.tokens = (TokenStream.ofText source).kinds ∧ DerivesApart ws b ∧
          bare b = bare a := by
  constructor
  · rintro ⟨d, hd, hbare⟩
    obtain ⟨hs, ws, hws, hg⟩ := derivesApart_of_parse hd
    exact ⟨hs, ws, d, hws, hg, hbare⟩
  · rintro ⟨hs, ws, b, hws, hg, hbare⟩
    obtain ⟨d, hd, hsame⟩ := parse_of_derivesApart hg hs hws
    exact ⟨d, hd, hsame.trans hbare⟩

def openType : TypeDefinition :=
  ⟨none, .ofString "A", [], .object [] [], Span.zero⟩

def fieldQuery : OperationDefinition :=
  ⟨.query, none, [], [], ⟨[.field ⟨none, "a", [], [], .absent, Span.zero⟩], Span.zero⟩, Span.zero⟩

def openTypeThenQuery : Document :=
  ⟨[.type openType, .operation fieldQuery], 0, Span.zero⟩

set_option maxRecDepth 4096 in
/-- Without the condition on braces there are more phrases than the reader takes: it takes the
selections of the query for the fields of the type. -/
theorem not_parse_iff_derives :
    ¬ ∀ (source : String) (a : Document),
      (∃ d, parse source = .ok d ∧ bare d = bare a) ↔
        (TokenStream.ofText source).isComplete = true ∧
          ∃ ws b, ws.tokens = (TokenStream.ofText source).kinds ∧ Derives ws b ∧
            bare b = bare a := by
  intro h
  have hcomplete : (TokenStream.ofText "type A {a}").isComplete = true := by cbv
  have hkinds : (TokenStream.ofText "type A {a}").kinds =
      [.name "type", .name "A", .punctuator .openBrace, .name "a", .punctuator .closeBrace] := by
    cbv
  have htype := TypeDefinition.Derives.intro openType .absent (.object .absent .absent) .nil
  have hfield := FieldOf.Derives.intro (G := Selection.Derives)
    (⟨none, "a", [], [], .absent, Span.zero⟩ : Field) .absent .absent .nil .absent
  have hquery := OperationDefinition.Derives.shorthand fieldQuery rfl
    (.present (.single (.field hfield)) (List.cons_ne_nil _ _)) (List.cons_ne_nil _ _)
  have hdocument := Derives.intro openTypeThenQuery
    (.cons (.type htype) (.single (.operation hquery))) (List.cons_ne_nil _ _)
  obtain ⟨d, hd, -⟩ := (h "type A {a}" openTypeThenQuery).mpr
    ⟨hcomplete, _, openTypeThenQuery, hkinds ▸ rfl, hdocument, rfl⟩
  have hfail : (parse "type A {a}").toOption.isSome = false := by cbv
  rw [hd] at hfail
  exact absurd hfail (by simp [Except.toOption])

end Document

end GraphQLText
