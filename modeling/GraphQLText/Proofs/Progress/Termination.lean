import GraphQLText.Proofs.Progress.Spelled

/-!
# Parsing comes to an end

Loops test for a mark that ends them and never for the end of the source, and recursion is not
bounded. Still every production has a run over every source, which takes at most one symbol more
than the source has tokens, because all items take a symbol or fail.
-/

namespace GraphQLText

set_option autoImplicit false

open Reader TokenStream

namespace TokenStream

theorem length_tokens_le (source : String) :
    (ofText source).tokens.length ≤ (lexemesOfText source).length := by
  obtain ⟨later, hlexemes⟩ := exists_lexemesOfText_eq source
  rw [hlexemes, List.length_append, List.length_map]
  exact Nat.le_add_right _ _

end TokenStream

/-- Behind the last token there is a symbol that is none. -/
theorem Sight.le_length_tokens {source : String} {n : Nat}
    (h : ∀ s ∈ symbolsTo source n, s.token? ≠ none) : n ≤ (ofText source).tokens.length := by
  refine Nat.le_of_not_lt fun hlt => ?_
  have hmem : (nth source (ofText source).tokens.length).symbol ∈ symbolsTo source n :=
    List.mem_map_of_mem (List.mem_range.mpr hlt)
  refine h _ hmem ?_
  rw [Sight.nth_tokens_length]
  cases (ofText source).ending <;> rfl

namespace Program

variable {body : (α : Type) → Nonterminal α → Program α} {source : String} {α β : Type}

/-- Wherever only tokens were taken so far, the program has a run, and it takes a symbol or ends with
an error. -/
def TakesOrFails (body : (α : Type) → Nonterminal α → Program α) (source : String)
    (item : Program α) : Prop :=
  ∀ n b, b.Stands source n → (∀ s ∈ Sight.symbolsTo source n, s.token? ≠ none) →
    ∃ us outcome d, Runs body item b us outcome d ∧ ∀ a, outcome = .ok a → us ≠ []

theorem Repeats.inSight (hbody : ∀ (α : Type) (t : Nonterminal α), IsBody t (body α t))
    {p : Program α} {item : Program β} (h : Repeats body p item) {seen : Prop}
    (hp : p.FailsInSight seen) : item.FailsInSight False := by
  induction h generalizing seen with
  | here => exact hp.2
  | more _ ih => exact ih hp.1
  | item _ ih => exact ih hp.2
  | bind_left _ ih => exact ih hp.1
  | bind_right _ ih => exact ih (hp.2 _)
  | call _ ih => exact ih (hbody _ _).inSight
  | relabel _ ih => exact ih hp

theorem Repeats.productive (hbody : ∀ (α : Type) (t : Nonterminal α), IsBody t (body α t))
    {p : Program α} {item : Program β} (h : Repeats body p item) (hp : p.Productive) :
    item.Productive ∧ Consuming item.read := by
  induction h with
  | here => exact hp.2
  | more _ ih => exact ih hp.1
  | item _ ih => exact ih hp.2.1
  | bind_left _ ih => exact ih hp.1
  | bind_right _ ih => exact ih (hp.2 _)
  | call _ ih => exact ih (hbody _ _).productive
  | relabel _ ih => exact ih hp

theorem Simulates.takesOrFails {item : Program α} (hconsuming : Consuming item.read)
    (hitem : ∀ n, n ≤ (ofText source).tokens.length → Simulates body source n False item) :
    TakesOrFails body source item := by
  intro n b hb htaken
  have hn := Sight.le_length_tokens htaken
  have hc := Cursor.stands_behind hn
  obtain ⟨us, outcome, d, hrun, hagrees⟩ := hitem n hn b _ hb hc False.elim
  refine ⟨us, outcome, d, hrun, ?_⟩
  rintro a rfl rfl
  generalize hread : item.read _ = result at hagrees
  cases hagrees with
  | ok he => exact Nat.lt_irrefl n (hc.lt_of_consuming he hconsuming hread)

/-- A program that has a run over the source is parsed as its reader parses the source. At most one
symbol is taken that is not a token behind which the reader goes on, and what the reader fails at was
pulled last. -/
theorem Simulates.parses {p : Program α} (hp : Simulates body source 0 False p) :
    ∃ us b, Parses body p source us ((p.read.run (ofText source)).mapError Failure.expected) b ∧
      us.length ≤ (ofText source).tokens.length + 1 ∧
      ∀ f, p.read.run (ofText source) = .error f →
        ∃ k, f.place.Stands source k ∧ b.pulled us.length = k + 1 := by
  obtain ⟨us, outcome, b, hrun, hagrees⟩ :=
    hp _ _ (Lookahead.stands_fresh source) (Cursor.stands_atStart source) False.elim
  have hb := (hrun.took (Lookahead.stands_fresh source)).stands
  rw [Nat.zero_add] at hb
  generalize hread : p.read _ = result at hagrees
  rw [Reader.run, whole, bind_apply, hread]
  cases hagrees with
  | @ok a c _ hc =>
    rw [Nat.zero_add] at hc
    have hcomplete : c.isComplete = (b.next.1 == .endOfInput) := by
      rw [c.isComplete_eq_sight, hc.sight, hb.next.1]
    have hlength : (us ++ [b.next.1]).length = us.length + 1 := List.length_append
    -- behind the node the end is asked for, so whatever stands there is taken
    refine ⟨us ++ [b.next.1], b.next.2, ?_⟩
    simp only [bind_apply, endOfInput, hcomplete]
    by_cases hend : b.next.1 = .endOfInput
    · simp only [beq_iff_eq.mpr hend, if_true]
      refine ⟨.ok hrun hend, hlength ▸ Nat.succ_le_succ hc.le, ?_⟩
      rintro f ⟨⟩
    · simp only [beq_eq_false_iff_ne.mpr hend, Bool.false_eq_true, if_false]
      refine ⟨.unfinished hrun hend, hlength ▸ Nat.succ_le_succ hc.le, ?_⟩
      rintro f ⟨⟩
      exact ⟨us.length, hc, hlength ▸ b.pulled_next (us.length + 1)⟩
  | @error f k _ hplace hpulled =>
    rw [Nat.zero_add] at hpulled
    have hle : us.length ≤ k + 1 := hpulled ▸ b.le_pulled us.length
    refine ⟨us, b, .error hrun, Nat.le_trans hle (Nat.succ_le_succ hplace.le), ?_⟩
    rintro f ⟨⟩
    exact ⟨k, hplace, hpulled⟩

end Program

theorem Production.simulates_program (p : Production) (source : String) :
    Program.Simulates Nonterminal.body source 0 False p.program :=
  Program.simulates Nonterminal.isBody p.productive_program p.inSight_program (Nat.zero_le _)

/-- Parsing ends on every source. There is exactly one run, it ends as the reader of the production
ends, and it takes what the source begins with, which is at most one symbol more than the source has
tokens, the broken ones included. For every item that is repeated takes a token or fails, whatever
comes next: a token, a broken one or the end. -/
theorem Production.exists_parses (p : Production) (source : String) :
    ∃ taken b, Program.Parses Nonterminal.body p.program source taken
        ((p.read.run (ofText source)).mapError Failure.expected) b ∧
      (∀ us outcome d, Program.Parses Nonterminal.body p.program source us outcome d →
        us = taken ∧ outcome = (p.read.run (ofText source)).mapError Failure.expected ∧ d = b) ∧
      taken = Sight.symbolsTo source taken.length ∧
      taken.length ≤ (lexemesOfText source).length + 1 ∧
      ∀ (α : Type) (item : Program α), Program.Repeats Nonterminal.body p.program item →
        item.TakesOrFails Nonterminal.body source := by
  obtain ⟨taken, b, hparses, hle, -⟩ := (p.simulates_program source).parses
  rw [p.read_program] at hparses
  refine ⟨taken, b, hparses, fun us outcome d h => h.unique hparses, ?_, ?_, fun α item hitem => ?_⟩
  · have hsymbols := hparses.took.symbols
    rwa [Nat.zero_add] at hsymbols
  · exact Nat.le_trans hle (Nat.succ_le_succ (length_tokens_le source))
  · obtain ⟨hproductive, hconsuming⟩ := hitem.productive Nonterminal.isBody p.productive_program
    have hsight := hitem.inSight Nonterminal.isBody p.inSight_program
    exact Program.Simulates.takesOrFails hconsuming fun n hn =>
      Program.simulates Nonterminal.isBody hproductive hsight hn

end GraphQLText
