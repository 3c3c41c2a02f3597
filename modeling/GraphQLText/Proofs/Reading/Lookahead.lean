import GraphQLText.Proofs.Lexing.Broken
import GraphQLText.Reader.Lookahead

/-!
# A lookahead is a place in the list of lexemes

All that a lookahead answers is told from one number, how many symbols were taken. Looking at a
symbol changes no answer. Up to the first broken token, the same is told from the cursor of a
reader.
-/

namespace GraphQLText

set_option autoImplicit false

open TokenStream

def Lexeme.sight : Lexeme → Sight
  | token t => ⟨.token t.token, t.span⟩
  | broken b => ⟨.broken, b.span⟩

namespace Sight

/-- What stands at a place of a source, counted in symbols from its start. -/
def nth (source : String) (n : Nat) : Sight :=
  match (lexemesOfText source)[n]? with
  | some l => l.sight
  | none => ⟨.endOfInput, ⟨source.utf8ByteSize, source.utf8ByteSize⟩⟩

def report (source : String) (expected : Construct) (sight : Sight) : Diagnostic :=
  Diagnostic.ofSpan source expected (sight.symbol == .broken) sight.span

def endBefore (source : String) : Nat → Nat
  | 0 => 0
  | n + 1 => (nth source n).span.stop

/-- The first `n` symbols of a source. -/
def symbolsTo (source : String) (n : Nat) : List Symbol :=
  (List.range n).map fun i => (nth source i).symbol

@[simp] theorem length_symbolsTo (source : String) (n : Nat) : (symbolsTo source n).length = n := by
  rw [symbolsTo, List.length_map, List.length_range]

theorem symbolsTo_succ (source : String) (n : Nat) :
    symbolsTo source (n + 1) = symbolsTo source n ++ [(nth source n).symbol] := by
  rw [symbolsTo, List.range_succ, List.map_append, List.map_singleton, symbolsTo]

end Sight

namespace Call

/-- The answer where `n` symbols were taken. -/
def answer (source : String) (n : Nat) : Call → Answer
  | next | peek => .symbol (Sight.nth source n).symbol
  | at? s | eat s => .truth ((Sight.nth source n).symbol == s)
  | expect s expected => .done (if (Sight.nth source n).symbol = s then .ok () else .error expected)
  | name expected =>
    .text <|
      match (Sight.nth source n).symbol with
      | .token (.name s) => .ok s
      | _ => .error expected
  | start => .offset (Sight.nth source n).span.start
  | spanFrom position => .span ⟨position, max position (Sight.endBefore source n)⟩

/-- How many symbols are taken after the call, if `n` were taken before it. -/
def after (source : String) (n : Nat) : Call → Nat
  | next | expect .. | name _ => n + 1
  | eat s => if (Sight.nth source n).symbol = s then n + 1 else n
  | peek | at? _ | start | spanFrom _ => n

def answers (source : String) : Nat → List Call → List Answer
  | _, [] => []
  | n, c :: calls => c.answer source n :: answers source (c.after source n) calls

def afterAll (source : String) : Nat → List Call → Nat
  | n, [] => n
  | n, c :: calls => afterAll source (c.after source n) calls

/-- The symbols that the call takes from a lookahead. -/
def taken (b : Lookahead) : Call → List Symbol
  | next | expect .. | name _ => [b.next.1]
  | eat s => if (b.at? s).1 then [(b.at? s).2.next.1] else []
  | peek | at? _ | start | spanFrom _ => []

end Call

def Lookahead.taken (b : Lookahead) : List Call → List Symbol
  | [] => []
  | c :: calls => c.taken b ++ (b.call c).2.taken calls

namespace Supply

def lexemes (s : Supply) : List Lexeme :=
  lexemesOfChars s.offset s.rest

theorem next?_eq (s : Supply) :
    (s.next? = none ∧ s.lexemes = []) ∨
      ∃ l s',
        s.next? = some (l.sight, s') ∧ s.lexemes = l :: s'.lexemes ∧ s'.source = s.source := by
  simp only [next?, lexemes, lexemesOfChars_eq s.offset s.rest]
  cases hskip : Ignored.skip false s.rest with
  | nil => exact .inl ⟨rfl, rfl⟩
  | cons c tail =>
    simp only
    refine .inr ?_
    generalize s.offset + Text.byteLength (Text.consumed s.rest (c :: tail)) = start
    cases hs : Scan.token? c tail with
    | token t rest =>
      let stop := start + Text.byteLength (Text.consumed (c :: tail) rest)
      refine ⟨.token ⟨t, String.ofList (Text.consumed (c :: tail) rest), start⟩,
        { s with offset := stop, rest }, ?_, rfl, rfl⟩
      simp only [Lexeme.sight, PlacedToken.span, String.toList_ofList, stop]
    | broken fault text lexeme =>
      let stop := start + Text.byteLength text
      refine ⟨.broken ⟨fault, String.ofList text, String.ofList lexeme, start⟩,
        { s with offset := stop, rest := (c :: tail).drop text.length }, ?_, rfl, rfl⟩
      simp only [Lexeme.sight, BrokenToken.span, String.toList_ofList, stop]

/-- The supply has given the first `n` lexemes of the source, or all that there are. -/
structure Stands (source : String) (n : Nat) (s : Supply) : Prop where
  origin : s.source = source
  lexemes : s.lexemes = (lexemesOfText source).drop n

theorem stands_ofSource (source : String) : (ofSource source).Stands source 0 :=
  ⟨rfl, rfl⟩

theorem Stands.pull {source : String} {n : Nat} {s : Supply} (h : s.Stands source n) :
    s.pull.1 = Sight.nth source n ∧ s.pull.2.Stands source (n + 1) := by
  have hnth : (lexemesOfText source)[n]? = s.lexemes.head? := by rw [h.lexemes, List.head?_drop]
  have hdrop : (lexemesOfText source).drop (n + 1) = s.lexemes.tail := by
    rw [h.lexemes, List.tail_drop]
  rcases s.next?_eq with ⟨hnext, hnil⟩ | ⟨l, s', hnext, hcons, hsource⟩
  · rw [hnil] at hnth hdrop
    simp only [Supply.pull, hnext, Sight.nth, hnth, List.head?_nil, h.origin, true_and]
    exact ⟨h.origin, by rw [hnil, hdrop, List.tail_nil]⟩
  · rw [hcons] at hnth hdrop
    simp only [Supply.pull, hnext, Sight.nth, hnth, List.head?_cons, true_and]
    exact ⟨hsource.trans h.origin, by rw [hdrop, List.tail_cons]⟩

end Supply

namespace Lookahead

/-- How many symbols were pulled from the supply, where `n` were taken. -/
def pulled (b : Lookahead) (n : Nat) : Nat :=
  if b.held.isSome then n + 1 else n

theorem le_pulled (b : Lookahead) (n : Nat) : n ≤ b.pulled n := by
  unfold pulled
  split <;> omega

/-- Nothing is held back behind a symbol that was taken. -/
theorem pulled_next (b : Lookahead) (n : Nat) : b.next.2.pulled n = n := by
  cases hheld : b.held <;> simp [pulled, next, pull, hheld]

/-- What was pulled last, where `n` symbols were taken: the symbol ahead if it was looked at, else
the one that was taken last. -/
def lastSeen (source : String) (b : Lookahead) (n : Nat) : Sight :=
  match b.pulled n with
  | 0 => ⟨.endOfInput, ⟨0, 0⟩⟩
  | m + 1 => Sight.nth source m

/-- The lookahead has taken the first `n` symbols of the source. -/
structure Stands (source : String) (n : Nat) (b : Lookahead) : Prop where
  supply : b.supply.Stands source (b.pulled n)
  held : ∀ s, b.held = some s → s = (Sight.nth source n).symbol
  span : b.span = (b.lastSeen source n).span
  isBroken : b.isBroken = ((b.lastSeen source n).symbol == .broken)
  takenEnd : b.takenEnd = Sight.endBefore source n

theorem stands_fresh (source : String) : (fresh source).Stands source 0 where
  supply := Supply.stands_ofSource source
  held := by rintro s ⟨⟩
  span := rfl
  isBroken := rfl
  takenEnd := rfl

section Steps

variable {source : String} {n : Nat} {b : Lookahead}

/-- The symbol ahead is held back from the supply, and nothing else changes. -/
theorem Stands.peek (h : b.Stands source n) :
    b.peek.1 = (Sight.nth source n).symbol ∧ b.peek.2.Stands source n ∧
      b.peek.2.held = some (Sight.nth source n).symbol := by
  cases hheld : b.held with
  | some s =>
    obtain rfl := h.held s hheld
    simp only [Lookahead.peek, hheld, true_and]
    exact ⟨h, trivial⟩
  | none =>
    obtain ⟨hsight, hsupply⟩ := Supply.Stands.pull (by simpa [pulled, hheld] using h.supply)
    simp only [Lookahead.peek, hheld, Lookahead.pull, hsight, true_and, and_true]
    exact ⟨hsupply, by simp, rfl, rfl, h.takenEnd⟩

/-- The symbol ahead is taken, whether it was looked at or not. -/
theorem Stands.next (h : b.Stands source n) :
    b.next.1 = (Sight.nth source n).symbol ∧ b.next.2.Stands source (n + 1) := by
  cases hheld : b.held with
  | some s =>
    obtain rfl := h.held s hheld
    have hspan : b.span = (Sight.nth source n).span := by
      simpa [lastSeen, pulled, hheld] using h.span
    have hbroken : b.isBroken = ((Sight.nth source n).symbol == .broken) := by
      simpa [lastSeen, pulled, hheld] using h.isBroken
    have hsupply : b.supply.Stands source (n + 1) := by simpa [pulled, hheld] using h.supply
    simp only [Lookahead.next, hheld, true_and]
    exact ⟨hsupply, by simp, hspan, hbroken, by rw [hspan, Sight.endBefore]⟩
  | none =>
    obtain ⟨hsight, hsupply⟩ := Supply.Stands.pull (by simpa [pulled, hheld] using h.supply)
    simp only [Lookahead.next, hheld, Lookahead.pull, hsight, true_and]
    exact ⟨by simpa [pulled, hheld] using hsupply, by simp, by simp [lastSeen, pulled],
      by simp [lastSeen, pulled], rfl⟩

theorem Stands.at? (h : b.Stands source n) (s : Symbol) :
    (b.at? s).1 = ((Sight.nth source n).symbol == s) ∧ (b.at? s).2.Stands source n := by
  obtain ⟨hsymbol, hstands, -⟩ := h.peek
  exact ⟨by simp only [Lookahead.at?, hsymbol], hstands⟩

theorem Stands.eat (h : b.Stands source n) (s : Symbol) :
    (b.eat s).1 = ((Sight.nth source n).symbol == s) ∧
      (b.eat s).2.Stands source (if (Sight.nth source n).symbol = s then n + 1 else n) := by
  obtain ⟨hfound, hstands⟩ := h.at? s
  by_cases hs : (Sight.nth source n).symbol = s
  · simp only [Lookahead.eat, hfound, hs, beq_self_eq_true, if_true, true_and]
    exact hstands.next.2
  · simp only [Lookahead.eat, hfound, beq_eq_false_iff_ne.mpr hs, Bool.false_eq_true, if_false, hs,
      true_and]
    exact hstands

theorem Stands.start (h : b.Stands source n) :
    b.start.1 = (Sight.nth source n).span.start ∧ b.start.2.Stands source n := by
  obtain ⟨-, hstands, hheld⟩ := h.peek
  refine ⟨?_, hstands⟩
  have hspan := hstands.span
  simp only [lastSeen, pulled, hheld, Option.isSome_some, if_true] at hspan
  rw [Lookahead.start, hspan]

theorem Stands.spanFrom (h : b.Stands source n) (position : Nat) :
    b.spanFrom position = ⟨position, max position (Sight.endBefore source n)⟩ := by
  rw [Lookahead.spanFrom, h.takenEnd, Nat.max_comm]

/-- One call: it answers what stands at the place of the lookahead, and takes no more than that. -/
theorem Stands.call (h : b.Stands source n) (c : Call) :
    (b.call c).1 = c.answer source n ∧ (b.call c).2.Stands source (c.after source n) := by
  cases c with
  | next => exact ⟨congrArg Answer.symbol h.next.1, h.next.2⟩
  | peek => exact ⟨congrArg Answer.symbol h.peek.1, h.peek.2.1⟩
  | at? s => exact ⟨congrArg Answer.truth (h.at? s).1, (h.at? s).2⟩
  | eat s => exact ⟨congrArg Answer.truth (h.eat s).1, (h.eat s).2⟩
  | expect s expected =>
    refine ⟨?_, h.next.2⟩
    simp only [Lookahead.call, Lookahead.expect, Prod.map, h.next.1, Call.answer]
  | name expected =>
    refine ⟨?_, h.next.2⟩
    simp only [Lookahead.call, Lookahead.name, Prod.map, h.next.1]
    rfl
  | start => exact ⟨congrArg Answer.offset h.start.1, h.start.2⟩
  | spanFrom position => exact ⟨congrArg Answer.span (h.spanFrom position), h⟩

/-- What one call takes is what stands at the place of the lookahead, if it takes anything. -/
theorem Stands.taken (h : b.Stands source n) (c : Call) :
    Sight.symbolsTo source n ++ c.taken b = Sight.symbolsTo source (c.after source n) := by
  have hnext : Sight.symbolsTo source n ++ [b.next.1] = Sight.symbolsTo source (n + 1) := by
    rw [h.next.1, Sight.symbolsTo_succ]
  cases c with
  | next | expect | name => exact hnext
  | peek | at? | start | spanFrom => exact List.append_nil _
  | eat s =>
    obtain ⟨hfound, hstands⟩ := h.at? s
    rw [Call.taken, Call.after, hfound, hstands.next.1]
    by_cases hs : (Sight.nth source n).symbol = s
    · rw [if_pos (beq_iff_eq.mpr hs), if_pos hs, Sight.symbolsTo_succ]
    · rw [if_neg (mt beq_iff_eq.mp hs), if_neg hs, List.append_nil]

theorem Stands.calls (h : b.Stands source n) (calls : List Call) :
    b.answers calls = Call.answers source n calls ∧
      Sight.symbolsTo source n ++ b.taken calls =
        Sight.symbolsTo source (Call.afterAll source n calls) ∧
      (b.behind calls).Stands source (Call.afterAll source n calls) := by
  induction calls generalizing n b with
  | nil => exact ⟨rfl, List.append_nil _, h⟩
  | cons c calls ih =>
    obtain ⟨hanswer, hstands⟩ := h.call c
    obtain ⟨hanswers, htaken, hbehind⟩ := ih hstands
    refine ⟨by rw [answers, Call.answers, hanswer, hanswers], ?_, hbehind⟩
    rw [Lookahead.taken, ← List.append_assoc, h.taken c, htaken, Call.afterAll]

theorem Stands.diagnostic (h : b.Stands source n) (expected : Construct) :
    b.diagnostic expected = (b.lastSeen source n).report source expected := by
  rw [Lookahead.diagnostic, Sight.report, h.supply.origin, h.isBroken, h.span]

end Steps

end Lookahead

namespace TokenStream

theorem exists_lexemesOfText_eq (source : String) :
    ∃ later, lexemesOfText source = (ofText source).tokens.map .token ++ later := by
  obtain ⟨later, hlexemes, -⟩ := exists_lexemesOfChars_eq_append 0 source.toList
  exact ⟨later, hlexemes⟩

end TokenStream

theorem Sight.nth_eq_of_lt {source : String} {n : Nat} (h : n < (ofText source).tokens.length) :
    nth source n = ⟨.token (ofText source).tokens[n].token, (ofText source).tokens[n].span⟩ := by
  obtain ⟨later, hlexemes⟩ := exists_lexemesOfText_eq source
  have hget : (lexemesOfText source)[n]? = some (.token (ofText source).tokens[n]) := by
    rw [hlexemes, List.getElem?_append_left (by rwa [List.length_map])]
    simp [h]
  rw [nth, hget]
  rfl

theorem Sight.nth_tokens_length (source : String) :
    nth source (ofText source).tokens.length = (ofText source).ending.sight := by
  obtain ⟨later, hlexemes, hend⟩ := exists_lexemesOfChars_eq_append 0 source.toList
  have hget : (lexemesOfText source)[(ofText source).tokens.length]? = later.head? := by
    rw [lexemesOfText, hlexemes,
      List.getElem?_append_right (by rw [List.length_map]; exact Nat.le_refl _), List.length_map,
      ofText, Nat.sub_self, List.head?_eq_getElem?]
  rw [nth, hget, ofText]
  split at hend
  · next stop hcomplete =>
    obtain ⟨rfl, rfl⟩ := hend
    rw [hcomplete]
    simp [Ending.sight, Ending.span, Text.byteLength_toList]
  · next hbroken =>
    obtain ⟨more, rfl⟩ := hend
    rw [hbroken]
    rfl

structure Cursor.Stands (source : String) (n : Nat) (c : Cursor) : Prop where
  tokens : c.tokens = (ofText source).tokens.drop n
  ending : c.ending = (ofText source).ending
  lastEnd : c.lastEnd = Sight.endBefore source n
  le : n ≤ (ofText source).tokens.length

namespace Cursor

variable {source : String} {n : Nat} {c : Cursor}

theorem stands_atStart (source : String) : (atStart (ofText source)).Stands source 0 :=
  ⟨rfl, rfl, rfl, Nat.zero_le _⟩

/-- What a cursor has ahead is what a lookahead sees at the same place. -/
theorem Stands.sight (h : c.Stands source n) : c.sight = Sight.nth source n := by
  rcases Nat.lt_or_eq_of_le h.le with hlt | rfl
  · rw [Cursor.sight, h.tokens, List.drop_eq_getElem_cons hlt, Sight.nth_eq_of_lt hlt]
  · rw [Cursor.sight, h.tokens, List.drop_length, Sight.nth_tokens_length, h.ending]

theorem Stands.advance (h : c.Stands source n) (hlt : n < (ofText source).tokens.length) :
    c.advance.Stands source (n + 1) := by
  have htokens := h.tokens
  rw [List.drop_eq_getElem_cons hlt] at htokens
  simp only [Cursor.advance, htokens]
  exact ⟨rfl, h.ending, by rw [Sight.endBefore, Sight.nth_eq_of_lt hlt], hlt⟩

theorem next?_eq_sight (c : Cursor) : c.next? = c.sight.symbol.token? := by
  unfold next? Cursor.sight Ending.sight
  cases c.tokens with
  | cons t rest => rfl
  | nil => cases c.ending <;> rfl

theorem nextSpan_eq_sight (c : Cursor) : c.nextSpan = c.sight.span := by
  unfold nextSpan Cursor.sight Ending.sight
  cases c.tokens with
  | cons t rest => rfl
  | nil => cases c.ending <;> rfl

theorem isComplete_eq_sight (c : Cursor) : c.isComplete = (c.sight.symbol == .endOfInput) := by
  unfold isComplete Cursor.sight Ending.sight
  cases c.tokens with
  | cons t rest => rfl
  | nil => cases c.ending <;> rfl

end Cursor

namespace TokenStream

/-- A lexeme covers a part of the source that is not empty. A token is that part. -/
theorem exists_of_mem_lexemesOfText {source : String} {l : Lexeme} (h : l ∈ lexemesOfText source) :
    ∃ before c text rest, source.toList = before ++ (c :: text ++ rest) ∧
      l.sight.span =
        ⟨Text.byteLength before, Text.byteLength before + Text.byteLength (c :: text)⟩ ∧
      ∀ t, l = .token t → t.text = String.ofList (c :: text) := by
  obtain ⟨before, c, text, rest, hsource, hfound⟩ := exists_of_mem_lexemesOfChars h
  refine ⟨before, c, text, rest, hsource, ?_⟩
  rcases hfound with ⟨t, -, rfl⟩ | ⟨fault, lexeme, -, rfl⟩
  · refine ⟨by simp [Lexeme.sight, PlacedToken.span], ?_⟩
    rintro t ⟨⟩
    rfl
  · refine ⟨by simp [Lexeme.sight, BrokenToken.span], ?_⟩
    rintro t ⟨⟩

/-- A second look at a broken token finds the fault for which reading broke off. -/
theorem classify_of_mem_brokenOfText {source : String} {b : BrokenToken}
    (h : b ∈ brokenOfText source) : Fault.classify source.toList b.span = b.fault := by
  obtain ⟨before, c, tail, rest, hsource, -, hs, hspan⟩ := exists_of_mem_brokenOfText h
  rw [Fault.classify, hsource, hspan, (Scan.explains_of_broken hs before).2, Option.getD_some]

/-- What stands at the span of a token is its text, which is not empty. -/
theorem slice_of_mem_tokens {source : String} {t : PlacedToken} (h : t ∈ (ofText source).tokens) :
    String.ofList (Text.slice t.span source.toList) = t.text ∧ t.span.start < t.span.stop := by
  obtain ⟨later, hlexemes⟩ := exists_lexemesOfText_eq source
  have hmem : .token t ∈ lexemesOfText source := by
    rw [hlexemes]
    exact List.mem_append_left _ (List.mem_map_of_mem h)
  obtain ⟨before, c, text, rest, hsource, hspan, htext⟩ := exists_of_mem_lexemesOfText hmem
  rw [show t.span = _ from hspan, hsource]
  constructor
  · rw [Text.slice_append, htext t rfl]
  · have hsize := c.utf8Size_pos
    rw [Text.byteLength_cons]
    simp only
    omega

end TokenStream

/-- What a reader reports is told from the span of the thing that is ahead of it. -/
theorem Cursor.Stands.diagnostic {source : String} {n : Nat} {c : Cursor} (h : c.Stands source n)
    (expected : Construct) :
    Failure.diagnostic source ⟨expected, c⟩ = c.sight.report source expected := by
  cases htokens : c.tokens with
  | cons t rest =>
    have ht : t ∈ (ofText source).tokens :=
      List.mem_of_mem_drop (h.tokens ▸ htokens ▸ List.mem_cons_self ..)
    obtain ⟨hslice, hlt⟩ := slice_of_mem_tokens ht
    have hnonempty : ¬ t.span.stop ≤ t.span.start := Nat.not_le_of_lt hlt
    simp [Failure.diagnostic, Failure.kind, Failure.message, Failure.lexeme?, Cursor.nextSpan,
      Cursor.sight, htokens, Sight.report, Diagnostic.ofSpan, hslice, hnonempty]
  | nil =>
    have hending := ending_ofChars 0 source.toList
    rw [← ofText, ← h.ending, ← brokenOfText] at hending
    cases hend : c.ending with
    | complete offset =>
      simp [Failure.diagnostic, Failure.kind, Failure.message, Failure.lexeme?, Cursor.nextSpan,
        Cursor.sight, Ending.sight, Ending.span, htokens, hend, Sight.report, Diagnostic.ofSpan]
    | broken fault text lexeme start =>
      rw [hend] at hending
      obtain ⟨more, hbroken, -⟩ := hending
      have hmem : ⟨fault, text, lexeme, start⟩ ∈ brokenOfText source :=
        hbroken ▸ List.mem_cons_self ..
      have hlexeme := lexemeAt_of_mem_brokenOfText hmem
      have hfault := classify_of_mem_brokenOfText hmem
      simp only [BrokenToken.span] at hlexeme hfault
      simp [Failure.diagnostic, Failure.kind, Failure.message, Failure.lexeme?, Cursor.nextSpan,
        Cursor.sight, Ending.sight, Ending.span, htokens, hend, Sight.report, Diagnostic.ofSpan,
        hlexeme, hfault]

/-- A lookahead that pulled last what a cursor has ahead reports the same as a reader there. -/
theorem Lookahead.Stands.diagnostic_eq {source : String} {n k : Nat} {b : Lookahead} {c : Cursor}
    (hb : b.Stands source n) (hc : c.Stands source k) (hpulled : b.pulled n = k + 1)
    (expected : Construct) : b.diagnostic expected = Failure.diagnostic source ⟨expected, c⟩ := by
  rw [hb.diagnostic, hc.diagnostic, hc.sight, lastSeen, hpulled]

def Cursor.behind (c : Cursor) : Nat → Cursor
  | 0 => c
  | n + 1 => (c.behind n).advance

theorem Cursor.stands_behind {source : String} {n : Nat} (h : n ≤ (ofText source).tokens.length) :
    ((atStart (ofText source)).behind n).Stands source n := by
  induction n with
  | zero => exact stands_atStart source
  | succ n ih => exact (ih (Nat.le_of_succ_le h)).advance h

/-- Where `n` symbols of the source were taken, the lookahead holds back none but the next one. A
report is about the symbol that is held back, and else about the last one taken. -/
structure Lookahead.Follows (source : String) (n : Nat) (b : Lookahead) : Prop where
  held : ∀ s, b.held = some s → s = (Sight.nth source n).symbol
  report_held : ∀ expected, b.held ≠ none →
    b.diagnostic expected = (Sight.nth source n).report source expected
  report_taken : ∀ expected m, b.held = none → n = m + 1 →
    b.diagnostic expected = (Sight.nth source m).report source expected

/-- The cursor has ahead of it what stands behind the first `n` symbols of the source, and a reader
that fails there reports it. -/
structure Cursor.Follows (source : String) (n : Nat) (c : Cursor) : Prop where
  next? : c.next? = (Sight.nth source n).symbol.token?
  isComplete : c.isComplete = ((Sight.nth source n).symbol == .endOfInput)
  nextSpan : c.nextSpan = (Sight.nth source n).span
  lastEnd : c.lastEnd = Sight.endBefore source n
  report : ∀ expected,
    Failure.diagnostic source ⟨expected, c⟩ = (Sight.nth source n).report source expected

theorem Lookahead.Stands.follows {source : String} {n : Nat} {b : Lookahead}
    (h : b.Stands source n) : b.Follows source n where
  held := h.held
  report_held expected hheld := by
    rw [h.diagnostic, lastSeen, pulled, if_pos (Option.isSome_iff_ne_none.mpr hheld)]
  report_taken expected m hheld hn := by
    rw [h.diagnostic, lastSeen, pulled, hheld, Option.isSome_none, if_neg Bool.false_ne_true, hn]

theorem Cursor.Stands.follows {source : String} {n : Nat} {c : Cursor} (h : c.Stands source n) :
    c.Follows source n where
  next? := h.sight ▸ c.next?_eq_sight
  isComplete := h.sight ▸ c.isComplete_eq_sight
  nextSpan := h.sight ▸ c.nextSpan_eq_sight
  lastEnd := h.lastEnd
  report := h.sight ▸ h.diagnostic

/-- Whatever a fresh lookahead is asked for, it answers what the symbols of the source say, counted
by those that were taken before, and it takes them from the first one on, each of them once. The
cursor of a reader says the same of every place up to the end of the tokens. -/
theorem Lookahead.answers_fresh (source : String) (calls : List Call) :
    (fresh source).answers calls = Call.answers source 0 calls ∧
      (fresh source).taken calls = Sight.symbolsTo source (Call.afterAll source 0 calls) ∧
      ((fresh source).behind calls).Follows source (Call.afterAll source 0 calls) ∧
      ∀ n ≤ (ofText source).tokens.length,
        ((Cursor.atStart (ofText source)).behind n).Follows source n := by
  obtain ⟨hanswers, htaken, hstands⟩ := (stands_fresh source).calls calls
  exact ⟨hanswers, htaken, hstands.follows, fun n hn => (Cursor.stands_behind hn).follows⟩

end GraphQLText
