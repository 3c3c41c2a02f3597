import GraphQLText.Proofs.Lexing.Broken
import GraphQLText.Proofs.Locality.Settled

/-!
# What a report tells

A report is about the last thing that the reader took from the source: no later token has a part in
it, and without that one it would be another report. The report gives its place, tells whether it is
a token, and shows its text.
-/

namespace GraphQLText

set_option autoImplicit false

open Reader

/-- What is taken from a source at once: a token, or what follows the last one. -/
inductive Pull
  | token (t : PlacedToken)
  | ending (e : Ending)
deriving DecidableEq, Repr

namespace Pull

def start : Pull → Nat
  | token t => t.span.start
  | ending e => e.span.start

def token? : Pull → Option PlacedToken
  | token t => some t
  | ending _ => none

def broken? : Pull → Option BrokenToken
  | ending (.broken fault text lexeme start) => some ⟨fault, text, lexeme, start⟩
  | _ => none

end Pull

namespace TokenStream

def pulls (stream : TokenStream) : List Pull :=
  stream.tokens.map .token ++ [.ending stream.ending]

theorem filterMap_token? (ts : List PlacedToken) : (ts.map Pull.token).filterMap Pull.token? = ts := by
  rw [List.filterMap_map]
  exact List.filterMap_some

theorem prefix_tokens_of_pulls {stream : TokenStream} {ts : List PlacedToken}
    (h : ts.map Pull.token <+: stream.pulls) : ts <+: stream.tokens := by
  have htokens := h.filterMap Pull.token?
  rwa [pulls, List.filterMap_append, filterMap_token?, filterMap_token?,
    List.filterMap_cons_none rfl, List.filterMap_nil, List.append_nil] at htokens

/-- What two streams both give first is a beginning of either. -/
theorem prefix_pulls_of_take_eq {stream stream' : TokenStream} {n : Nat} {ps : List Pull}
    (h : stream'.pulls.take n = stream.pulls.take n) (hps : ps <+: stream.pulls)
    (hlen : ps.length ≤ n) : ps <+: stream'.pulls := by
  have htake := List.prefix_take_iff.mpr ⟨hps, hlen⟩
  rw [← h] at htake
  exact (List.prefix_take_iff.mp htake).1

theorem eq_of_pulls_prefix {stream stream' : TokenStream} (h : stream.pulls <+: stream'.pulls) :
    stream = stream' := by
  obtain ⟨more, htokens⟩ := prefix_tokens_of_pulls ((List.prefix_append _ _).trans h)
  obtain ⟨tokens, ending⟩ := stream
  obtain ⟨tokens', ending'⟩ := stream'
  simp only at htokens
  subst htokens
  simp only [pulls, List.map_append, List.append_assoc, List.prefix_append_right_inj] at h
  cases more with
  | nil =>
    obtain ⟨rfl⟩ := (List.cons_prefix_cons.mp h).1
    simp
  | cons t more => cases (List.cons_prefix_cons.mp h).1

end TokenStream

def Cursor.pull (c : Cursor) : Pull :=
  match c.tokens with
  | t :: _ => .token t
  | [] => .ending c.ending

/-- What is said of a failure, apart from the lines of the source about it. -/
structure Report where
  kind : FaultKind
  message : String
  lexeme : Option String
  start : Nat

def Failure.report (f : Failure) : Report :=
  ⟨f.kind, f.message, f.lexeme?, f.place.nextSpan.start⟩

namespace Reader

variable {α : Type} {r : Reader α}

def report? (r : Reader α) (stream : TokenStream) : Option Report :=
  match r.run stream with
  | .ok _ => none
  | .error f => some f.report

/-- The report is the same on all streams that give the same things first, as many as `n`. -/
def SettledBy (r : Reader α) (stream : TokenStream) (n : Nat) : Prop :=
  ∀ stream', stream'.pulls.take n = stream.pulls.take n → r.report? stream' = r.report? stream

/-- The reader takes the first `n` things and then the given one before it reports: they settle the
report, and without the last one it is not settled. -/
structure LastPull (r : Reader α) (stream : TokenStream) (n : Nat) (pull : Pull) : Prop where
  pulled : stream.pulls[n]? = some pull
  enough : r.SettledBy stream (n + 1)
  needed : ¬ r.SettledBy stream n

theorem SettledBy.mono {stream : TokenStream} {n m : Nat} (h : r.SettledBy stream n) (hle : n ≤ m) :
    r.SettledBy stream m := by
  intro stream' hpulls
  have htake := congrArg (List.take n) hpulls
  rw [List.take_take, List.take_take, Nat.min_eq_left hle] at htake
  exact h stream' htake

/-- There is but one last thing that a reader takes. -/
theorem LastPull.unique {stream : TokenStream} {n m : Nat} {pull pull' : Pull}
    (h : r.LastPull stream n pull) (h' : r.LastPull stream m pull') : n = m ∧ pull = pull' := by
  have heq : n = m := by
    rcases Nat.lt_trichotomy n m with hlt | heq | hgt
    · exact absurd (h.enough.mono hlt) h'.needed
    · exact heq
    · exact absurd (h'.enough.mono hgt) h.needed
  subst heq
  exact ⟨rfl, Option.some.inj (h.pulled.symm.trans h'.pulled)⟩

theorem report?_eq_some {stream : TokenStream} {report : Report} :
    r.report? stream = some report ↔ ∃ f, r.run stream = .error f ∧ f.report = report := by
  unfold report?
  cases r.run stream <;> simp

section Failing

variable {stream : TokenStream} {f : Failure} {before : List PlacedToken}

/-- What a failing reader has ahead settles its report. -/
theorem settledBy_succ [Prompt r] (h : r.run stream = .error f)
    (htokens : stream.tokens = before ++ f.place.tokens) :
    r.SettledBy stream (before.length + 1) := by
  intro stream' hpulls
  cases hplace : f.place.tokens with
  | nil =>
    rw [hplace, List.append_nil] at htokens
    -- all that the stream gives has been taken, so the other stream is the same
    have hall : stream.pulls <+: stream'.pulls :=
      TokenStream.prefix_pulls_of_take_eq hpulls (List.prefix_refl _)
        (by simp [TokenStream.pulls, htokens])
    rw [TokenStream.eq_of_pulls_prefix hall]
  | cons t after =>
    rw [hplace] at htokens
    have hbefore : (before ++ [t]).map Pull.token <+: stream.pulls := by
      simp [TokenStream.pulls, htokens]
    obtain ⟨after', htokens'⟩ := TokenStream.prefix_tokens_of_pulls
      (TokenStream.prefix_pulls_of_take_eq hpulls hbefore (by simp))
    rw [List.append_assoc, List.singleton_append] at htokens'
    obtain ⟨f', hf', hexpected, hplace'⟩ := run_eq_error_of_before h htokens hplace htokens'.symm
    obtain ⟨hkind, hmessage, hlexeme, hnext⟩ := Failure.report_of_token hexpected hplace hplace'
    rw [report?_eq_some.mpr ⟨f, h, rfl⟩]
    refine report?_eq_some.mpr ⟨f', hf', ?_⟩
    rw [Failure.report, hkind, hmessage, hlexeme, hnext, Failure.report]

/-- A report that is settled before the last thing is the same whatever stands in its place. -/
theorem exists_failure_of_settledBy [Forward r] (h : r.run stream = .error f)
    (hsettled : r.SettledBy stream before.length)
    (htokens : stream.tokens = before ++ f.place.tokens) (ending : Ending) :
    ∃ (f' : Failure) (behind : List PlacedToken), f'.report = f.report ∧
      before = behind ++ f'.place.tokens ∧ f'.place.ending = ending := by
  have hreport : r.report? ⟨before, ending⟩ = some f.report := by
    rw [hsettled ⟨before, ending⟩ (by simp [TokenStream.pulls, htokens]),
      report?_eq_some]
    exact ⟨f, h, rfl⟩
  obtain ⟨f', hf', hreport⟩ := report?_eq_some.mp hreport
  obtain ⟨⟨behind, hbefore⟩, hending⟩ := exists_tokens_of_run hf'
  exact ⟨f', behind, hreport, hbefore, hending⟩

/-- The end of the source in the place of the token at which a reader fails makes another report, and
so does something broken in the place of the end. -/
theorem not_settledBy [Forward r] (h : r.run stream = .error f)
    (htokens : stream.tokens = before ++ f.place.tokens)
    (hordered : ∀ t ∈ before, t.span.start < f.place.nextSpan.start) :
    ¬ r.SettledBy stream before.length := by
  intro hsettled
  have hother := exists_failure_of_settledBy h hsettled htokens
  -- the stream is cut off before the token, and the reports differ in the lexeme or in the place; if
  -- it ends there, the ending is replaced, and they differ in the kind or in the lexeme
  cases hplace : f.place.tokens with
  | cons t after =>
    obtain ⟨f', behind, hreport, hbefore, hending⟩ := hother (.complete 0)
    simp only [Failure.report, Report.mk.injEq] at hreport
    obtain ⟨-, -, hlexeme, hstart⟩ := hreport
    cases hplace' : f'.place.tokens with
    | nil => simp [Failure.lexeme?, hplace, hplace', hending] at hlexeme
    | cons u after' =>
      have hlt := hordered u (by simp [hbefore, hplace'])
      rw [← hstart, Cursor.nextSpan, hplace'] at hlt
      exact Nat.lt_irrefl _ hlt
  | nil =>
    cases hend : f.place.ending with
    | complete offset =>
      obtain ⟨f', behind, hreport, hbefore, hending⟩ := hother (.broken .invalidNumber "" "" 0)
      simp only [Failure.report, Report.mk.injEq] at hreport
      obtain ⟨hkind, -, hlexeme, -⟩ := hreport
      cases hplace' : f'.place.tokens with
      | nil => simp [Failure.kind, hplace, hplace', hend, hending] at hkind
      | cons u after' => simp [Failure.lexeme?, hplace, hplace', hend] at hlexeme
    | broken fault text lexeme start =>
      obtain ⟨f', behind, hreport, hbefore, hending⟩ := hother (.complete 0)
      simp only [Failure.report, Report.mk.injEq] at hreport
      obtain ⟨hkind, -, -, -⟩ := hreport
      cases hplace' : f'.place.tokens with
      | nil => simp [Failure.kind, hplace, hplace', hend, hending] at hkind
      | cons u after' => simp [Failure.kind, hplace, hplace', hend] at hkind

theorem pulls_getElem?_length (htokens : stream.tokens = before ++ f.place.tokens)
    (hending : f.place.ending = stream.ending) :
    stream.pulls[before.length]? = some f.place.pull := by
  cases hplace : f.place.tokens <;>
    simp [TokenStream.pulls, Cursor.pull, htokens, hplace, hending]

end Failing

theorem lastPull_of_run {p : Production} {source : String} {f : Failure}
    {before : List PlacedToken} (h : p.read.run (TokenStream.ofText source) = .error f)
    (htokens : (TokenStream.ofText source).tokens = before ++ f.place.tokens) :
    p.read.LastPull (TokenStream.ofText source) before.length f.place.pull where
  pulled := pulls_getElem?_length htokens (exists_tokens_of_run h).2
  enough := settledBy_succ h htokens
  needed := not_settledBy h htokens (start_lt_of_run h htokens)

end Reader

namespace TokenStream

theorem slice_of_mem_ofText {source : String} {t : PlacedToken} (ht : t ∈ (ofText source).tokens) :
    Text.slice t.span source.toList = t.text.toList := by
  obtain ⟨us, vs, htokens⟩ := List.append_of_mem ht
  obtain ⟨blank, text, rest, hsource, -, -, heq, hspan⟩ := exists_of_tokens_eq_append htokens
  rw [hspan, hsource, Text.byteLength_append, Text.slice_append, heq, String.toList_ofList]

theorem start_ending_le {source : String} {b : BrokenToken} (h : b ∈ brokenOfText source) :
    (ofText source).ending.span.start ≤ b.start := by
  have hending := ending_ofChars 0 source.toList
  rw [brokenOfText] at h
  rw [ofText]
  split at hending
  · rw [hending.2] at h
    cases h
  · next heq =>
    obtain ⟨more, hbroken, hlater⟩ := hending
    rw [hbroken] at h
    rw [heq]
    rcases List.mem_cons.mp h with rfl | hmem
    · exact Nat.le_refl _
    · exact hlater b hmem

end TokenStream

/-- The report is about the given thing of the source, before which nothing is broken. -/
structure Diagnostic.Tells (e : Diagnostic) (source : String) (pull : Pull) : Prop where
  location : e.location = some (Location.ofOffset source.toList pull.start)
  first : ∀ b ∈ TokenStream.brokenOfText source, pull.start ≤ b.start
  lexical_iff : e.kind = .lexical ↔
    ∃ b ∈ TokenStream.brokenOfText source, pull.broken? = some b
  lexeme_eq_none_iff : e.lexeme = none ↔ pull = .ending (.complete source.utf8ByteSize)
  lexeme_token : ∀ t, pull.token? = some t →
    e.lexeme = some (String.ofList (Text.slice t.span source.toList))
  lexeme_broken : ∀ b, pull.broken? = some b →
    e.lexeme = some (String.ofList (BrokenToken.lexemeAt source.toList b.span))

namespace Failure

variable {f : Failure} {source : String}

theorem tells_token {t : PlacedToken} {after : List PlacedToken} (hplace : f.place.tokens = t :: after)
    (ht : t ∈ (TokenStream.ofText source).tokens) :
    (f.diagnostic source).Tells source (.token t) := by
  have hpairs := (TokenStream.pairwise_spans 0 source.toList).2
  have hbefore := (List.pairwise_append.mp hpairs).2.2 t.span (List.mem_map_of_mem ht) _
    (List.mem_singleton_self _)
  constructor
  case location => simp [diagnostic, Cursor.nextSpan, hplace, Pull.start]
  case first =>
    intro b hb
    exact Nat.le_trans (Nat.le_of_lt hbefore.1) (TokenStream.start_ending_le hb)
  case lexical_iff => simp [diagnostic, kind, hplace, Pull.broken?]
  case lexeme_eq_none_iff => simp [diagnostic, lexeme?, hplace]
  case lexeme_token =>
    rintro t ⟨⟩
    rw [TokenStream.slice_of_mem_ofText ht, String.ofList_toList]
    simp [diagnostic, lexeme?, hplace]
  case lexeme_broken =>
    rintro b ⟨⟩

theorem tells_ending (hplace : f.place.tokens = [])
    (hending : f.place.ending = (TokenStream.ofText source).ending) :
    (f.diagnostic source).Tells source (.ending f.place.ending) := by
  have hfirst : ∀ b ∈ TokenStream.brokenOfText source,
      (Pull.ending f.place.ending).start ≤ b.start := by
    intro b hb
    rw [hending]
    exact TokenStream.start_ending_le hb
  have hstream := TokenStream.ending_ofChars 0 source.toList
  rw [← TokenStream.ofText, ← hending, ← TokenStream.brokenOfText] at hstream
  have hlocation : (f.diagnostic source).location =
      some (Location.ofOffset source.toList (Pull.ending f.place.ending).start) := by
    simp [diagnostic, Cursor.nextSpan, hplace, Pull.start]
  cases hend : f.place.ending with
  | complete offset =>
    rw [hend] at hstream hfirst hlocation
    obtain ⟨rfl, hnone⟩ := hstream
    rw [Nat.zero_add, Text.byteLength_toList] at hend hlocation hfirst ⊢
    constructor
    case location => exact hlocation
    case first => exact hfirst
    case lexical_iff => simp [diagnostic, kind, hplace, hend, hnone]
    case lexeme_eq_none_iff => simp [diagnostic, lexeme?, hplace, hend]
    case lexeme_token => rintro t ⟨⟩
    case lexeme_broken => rintro b ⟨⟩
  | broken fault text lexeme start =>
    rw [hend] at hstream hfirst hlocation
    obtain ⟨more, hbroken, -⟩ := hstream
    have hmem : ⟨fault, text, lexeme, start⟩ ∈ TokenStream.brokenOfText source :=
      hbroken ▸ List.mem_cons_self ..
    constructor
    case location => exact hlocation
    case first => exact hfirst
    case lexical_iff =>
      simp only [diagnostic, kind, hplace, hend, true_iff]
      exact ⟨_, hmem, rfl⟩
    case lexeme_eq_none_iff => simp [diagnostic, lexeme?, hplace, hend]
    case lexeme_token => rintro t ⟨⟩
    case lexeme_broken =>
      rintro b ⟨⟩
      rw [TokenStream.lexemeAt_of_mem_brokenOfText hmem, String.ofList_toList]
      simp [diagnostic, lexeme?, hplace, hend]

/-- The report of a reader tells of what the reader fails at. -/
theorem tells_of_run {α : Type} {r : Reader α} [Forward r]
    (h : r.run (TokenStream.ofText source) = .error f) :
    (f.diagnostic source).Tells source f.place.pull := by
  obtain ⟨⟨before, htokens⟩, hending⟩ := exists_tokens_of_run h
  cases hplace : f.place.tokens with
  | nil =>
    rw [Cursor.pull, hplace]
    exact tells_ending hplace hending
  | cons t after =>
    rw [Cursor.pull, hplace]
    exact tells_token hplace (by simp [htokens, hplace])

end Failure

end GraphQLText
