import GraphQLText.Proofs.Lexing.Cuts
import GraphQLText.Proofs.Locality.Outcome
import GraphQLText.Proofs.Locality.Settled
import GraphQLText.Proofs.Reading.Lookahead
import GraphQLText.Proofs.Snippets.Layout

/-!
# Parsing by positions

Parsing where each piece of the source is cut out by its positions and each number is subtracted
from one that must not be less. It gives what parsing gives, so that no cut and no subtraction ever
fails.
-/

namespace GraphQLText

set_option autoImplicit false

namespace TokenStream

def ofCharsCut? (offset : Nat) (cs : List Char) : Option TokenStream :=
  let ahead := Ignored.skip false cs
  let start := offset + Text.byteLength (Text.consumed cs ahead)
  match _h : ahead with
  | [] => some ⟨[], .complete start⟩
  | c :: tail =>
    match _hs : Scan.tokenCut? c tail with
    | none => none
    | some (.broken fault text lexeme) =>
      some ⟨[], .broken fault (String.ofList text) (String.ofList lexeme) start⟩
    | some (.token token rest) =>
      let text := Text.consumed (c :: tail) rest
      (ofCharsCut? (start + Text.byteLength text) rest).map
        (cons ⟨token, String.ofList text, start⟩)
termination_by cs.length
decreasing_by
  rw [Scan.tokenCut?_eq] at _hs
  have hrest := Scan.length_rest_of_token? (Option.some.inj _hs)
  have hskip := Ignored.length_skip_le false cs
  have hlen := congrArg List.length _h
  simp only [ahead, List.length_cons] at hlen
  omega

end TokenStream

def Diagnostic.ofSpanCut? (source : String) (expected : Construct) (isBroken : Bool) (span : Span) :
    Option Diagnostic := do
  let chars := source.toList
  let location ← Location.at? chars span.start
  let context ← Excerpt.render? chars span
  if isBroken then
    let lexeme ← BrokenToken.lexemeCut? chars span
    let fault ← Fault.classifyCut? chars span
    let text := String.ofList lexeme
    let message :=
      if fault.quotesText then fault.message ++ " " ++ Text.quoted text else fault.message
    return { kind := .lexical, message, lexeme := some text, location, context }
  else if span.stop ≤ span.start then
    return { kind := .grammatical
             message := "Expected " ++ expected.title ++ ", found end of input"
             lexeme := none, location, context }
  else
    let lexeme ← Text.piece? span chars
    let text := String.ofList lexeme
    return { kind := .grammatical
             message := "Expected " ++ expected.title ++ ", found " ++ Text.quoted text
             lexeme := some text, location, context }

def Reader.parseCut? {α : Type} (read : Reader α) (source : String) :
    Option (Except Diagnostic α) := do
  let stream ← TokenStream.ofCharsCut? 0 source.toList
  match read.run stream with
  | .ok node => return .ok node
  | .error failure =>
    let report ← Diagnostic.ofSpanCut? source failure.expected (failure.kind = .lexical)
      failure.place.nextSpan
    return .error report

def Production.parseCut? (p : Production) (source : String) : Option (Except Diagnostic p.Node) :=
  p.read.parseCut? source

namespace TokenStream

theorem ofCharsCut?_step (offset : Nat) (cs : List Char) :
    ofCharsCut? offset cs =
      match Ignored.skip false cs with
      | [] => some ⟨[], .complete (offset + Text.byteLength (Text.consumed cs []))⟩
      | c :: tail =>
        let start := offset + Text.byteLength (Text.consumed cs (c :: tail))
        match Scan.token? c tail with
        | .broken fault text lexeme =>
          some ⟨[], .broken fault (String.ofList text) (String.ofList lexeme) start⟩
        | .token token rest =>
          let text := Text.consumed (c :: tail) rest
          (ofCharsCut? (start + Text.byteLength text) rest).map
            (cons ⟨token, String.ofList text, start⟩) := by
  rw [ofCharsCut?]
  simp only
  split
  · next h => simp only [h]
  · next h =>
    simp only [h]
    split
    · next hs => cases (Scan.tokenCut?_eq ..).symm.trans hs
    · next hs =>
      rw [Scan.tokenCut?_eq, Option.some.injEq] at hs
      simp only [hs]
    · next hs =>
      rw [Scan.tokenCut?_eq, Option.some.injEq] at hs
      simp only [hs]

/-- Every token of a text can be cut out, up to where no token can be read. -/
theorem ofCharsCut?_eq (offset : Nat) (cs : List Char) :
    ofCharsCut? offset cs = some (ofChars offset cs) := by
  induction offset, cs using stepwise with
  | ended offset gap _ hend =>
    rw [ofCharsCut?_step, ofChars_ended offset hend, hend]
    simp [Text.consumed]
  | token offset gap c text rest t hstep hs ih =>
    rw [ofCharsCut?_step, ofChars_token offset hstep hs, hstep.skips, List.cons_append]
    simp only [Text.consumed_append, hs]
    rw [← List.cons_append, Text.consumed_append, ih]
    rfl
  | broken offset gap c text rest fault lexeme hstep hs _ =>
    rw [ofCharsCut?_step, ofChars_broken offset hstep hs, hstep.skips, List.cons_append]
    simp only [Text.consumed_append, hs]

end TokenStream

/-- The report on a piece of the source is made from pieces of the source. -/
theorem Diagnostic.ofSpanCut?_eq {source : String} {before text rest : List Char}
    (hsource : source.toList = before ++ (text ++ rest)) (expected : Construct) (isBroken : Bool) :
    ofSpanCut? source expected isBroken
        ⟨Text.byteLength before, Text.byteLength before + Text.byteLength text⟩ =
      some (ofSpan source expected isBroken
        ⟨Text.byteLength before, Text.byteLength before + Text.byteLength text⟩) := by
  have hlocation := Excerpt.at?_eq before (text ++ rest)
  have hrows := Excerpt.rows?_eq before text rest
  have hpiece := Text.piece?_append before text rest
  rw [← Location.ofOffset_byteLength before (text ++ rest)] at hlocation
  rw [Text.byteLength_append] at hrows hpiece
  simp only [ofSpanCut?, ofSpan, hsource, hlocation, Excerpt.render?, hrows, hpiece,
    Text.slice_append,
    BrokenToken.lexemeCut?_eq, Fault.classifyCut?_eq, Option.bind_eq_bind, Option.bind_some,
    Option.map_some, Option.pure_def, Snippet.render]
  split
  · rfl
  · split <;> rfl

/-- Wherever a lookahead may come to, what it finds there is a piece of the source. -/
theorem Sight.exists_piece (source : String) (n : Nat) :
    ∃ before text rest, source.toList = before ++ (text ++ rest) ∧
      (nth source n).span =
        ⟨Text.byteLength before, Text.byteLength before + Text.byteLength text⟩ := by
  unfold nth
  split
  · next l hl =>
    obtain ⟨before, c, text, rest, hsource, hspan, -⟩ :=
      TokenStream.exists_of_mem_lexemesOfText (List.mem_of_getElem? hl)
    exact ⟨before, c :: text, rest, hsource, hspan⟩
  · exact ⟨source.toList, [], [], by simp, by simp [Text.byteLength_toList]⟩

theorem Failure.decide_kind (f : Failure) :
    decide (f.kind = .lexical) = (f.place.sight.symbol == .broken) := by
  unfold kind Cursor.sight Ending.sight
  cases f.place.tokens with
  | cons t rest => rfl
  | nil => cases f.place.ending <;> rfl

namespace Reader

variable {α : Type} {read : Reader α} [Forward read]

/-- Where reading fails is where some lookahead would be, but for what it knows of the tokens behind
it. -/
theorem exists_stands_of_run {source : String} {f : Failure}
    (h : read.run (TokenStream.ofText source) = .error f) :
    ∃ n, ({ f.place with lastEnd := Sight.endBefore source n } : Cursor).Stands source n := by
  obtain ⟨⟨before, htokens⟩, hending⟩ := exists_tokens_of_run h
  refine ⟨before.length, ?_, hending, rfl, ?_⟩
  · rw [htokens, List.drop_left]
  · rw [htokens, List.length_append]
    exact Nat.le_add_right ..

theorem parseCut?_eq (source : String) : read.parseCut? source = some (read.parse source) := by
  unfold parseCut? Reader.parse
  rw [TokenStream.ofCharsCut?_eq, ← TokenStream.ofText, Option.bind_eq_bind, Option.bind_some]
  cases hrun : read.run (TokenStream.ofText source) with
  | ok node => rfl
  | error f =>
    obtain ⟨n, hstands⟩ := exists_stands_of_run hrun
    obtain ⟨before, text, rest, hsource, hspan⟩ := Sight.exists_piece source n
    have hdiagnostic : f.diagnostic source = f.place.sight.report source f.expected :=
      hstands.diagnostic f.expected
    have hsight : f.place.sight.span = _ := (congrArg Sight.span hstands.sight).trans hspan
    simp only [f.decide_kind, f.place.nextSpan_eq_sight, hdiagnostic, hsight, Sight.report,
      Diagnostic.ofSpanCut?_eq hsource]
    rfl

end Reader

/-- No node of any kind is read or turned down with a piece of the source that does not begin and
end between two of its characters, or with a difference below zero. -/
theorem Production.parseCut?_eq_parse (p : Production) (source : String) :
    p.parseCut? source = some (p.parse source) :=
  Reader.parseCut?_eq source

end GraphQLText
