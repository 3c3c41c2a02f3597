import GraphQLText.Proofs.Reading.Lookahead
import GraphQLText.Reader.Program

/-!
# Runs of a program

Loops and calls are not bounded, so it is only told how one run goes, and not that there is one. Of
a run is known what symbols it takes. They are those of the source, in order, from the place on at
which it begins.
-/

namespace GraphQLText

set_option autoImplicit false

/-- The lookahead stands behind the symbols, which are those of the source from the place `n` on. -/
structure Lookahead.Took (source : String) (n : Nat) (us : List Symbol) (d : Lookahead) :
    Prop where
  symbols : Sight.symbolsTo source n ++ us = Sight.symbolsTo source (n + us.length)
  stands : d.Stands source (n + us.length)

namespace Lookahead

variable {source : String} {n : Nat} {us vs : List Symbol} {b d : Lookahead}

theorem Stands.took_nil (h : b.Stands source n) : b.Took source n [] :=
  ⟨List.append_nil _, h⟩

theorem Took.append (hus : b.Took source n us) (hvs : d.Took source (n + us.length) vs) :
    d.Took source n (us ++ vs) where
  symbols := by
    rw [← List.append_assoc, hus.symbols, hvs.symbols, List.length_append, Nat.add_assoc]
  stands := by
    rw [List.length_append, ← Nat.add_assoc]
    exact hvs.stands

theorem Stands.add_length_taken (h : b.Stands source n) (c : Call) :
    n + (c.taken b).length = c.after source n := by
  simpa using congrArg List.length (h.taken c)

theorem Stands.took_call (h : b.Stands source n) (c : Call) :
    (b.call c).2.Took source n (c.taken b) where
  symbols := h.add_length_taken c ▸ h.taken c
  stands := h.add_length_taken c ▸ (h.call c).2

end Lookahead

namespace Op

def call {α : Type} : Op α → Call
  | peek => .peek
  | at? s => .at? s
  | eat t => .eat (.token t)
  | take .. => .next
  | start => .start
  | spanFrom position => .spanFrom position

theorem run_eq_call {α : Type} (op : Op α) (b : Lookahead) : (op.run b).2 = (b.call op.call).2 := by
  cases op with
  | take expected accept =>
    simp only [run]
    cases b.next.1.token?.bind accept <;> rfl
  | _ => rfl

end Op

namespace Program

section Runs

variable (body : (α : Type) → Nonterminal α → Program α)

/-- A run of a program, from one lookahead to another, with the symbols that it takes. -/
inductive Runs : ∀ {α : Type}, Program α → Lookahead → List Symbol → Except Construct α →
    Lookahead → Prop
  | pure {α : Type} {a : α} {b : Lookahead} : Runs (.pure a) b [] (.ok a) b
  | fail {α : Type} {expected : Construct} {b : Lookahead} :
      Runs (.fail expected : Program α) b [] (.error expected) b
  | ask {α : Type} {op : Op α} {b : Lookahead} :
      Runs (.ask op) b (op.call.taken b) (op.run b).1 (op.run b).2
  | bind_ok {α β : Type} {p : Program α} {next : α → Program β} {b d e : Lookahead} {a : α}
      {us vs : List Symbol} {outcome : Except Construct β} :
      Runs p b us (.ok a) d → Runs (next a) d vs outcome e →
        Runs (.bind p next) b (us ++ vs) outcome e
  | bind_error {α β : Type} {p : Program α} {next : α → Program β} {b d : Lookahead}
      {us : List Symbol} {expected : Construct} :
      Runs p b us (.error expected) d → Runs (.bind p next) b us (.error expected) d
  | loop_end {α β : Type} {more : Program Bool} {item : Program α} {finish : List α → β}
      {b d : Lookahead} {us : List Symbol} :
      Runs more b us (.ok false) d → Runs (.loop more item finish) b us (.ok (finish [])) d
  | loop_error {α β : Type} {more : Program Bool} {item : Program α} {finish : List α → β}
      {b d : Lookahead} {us : List Symbol} {expected : Construct} :
      Runs more b us (.error expected) d → Runs (.loop more item finish) b us (.error expected) d
  | item_ok {α β : Type} {more : Program Bool} {item : Program α} {finish : List α → β}
      {b d e f : Lookahead} {us vs ws : List Symbol} {a : α} {outcome : Except Construct β} :
      Runs more b us (.ok true) d → Runs item d vs (.ok a) e →
        Runs (.loop more item fun as => finish (a :: as)) e ws outcome f →
          Runs (.loop more item finish) b (us ++ (vs ++ ws)) outcome f
  | item_error {α β : Type} {more : Program Bool} {item : Program α} {finish : List α → β}
      {b d e : Lookahead} {us vs : List Symbol} {expected : Construct} :
      Runs more b us (.ok true) d → Runs item d vs (.error expected) e →
        Runs (.loop more item finish) b (us ++ vs) (.error expected) e
  | call {α : Type} {n : Nonterminal α} {b d : Lookahead} {us : List Symbol}
      {outcome : Except Construct α} :
      Runs (body α n) b us outcome d → Runs (.call n) b us outcome d
  | relabel_ok {α : Type} {p : Program α} {expected : Construct} {b d : Lookahead}
      {us : List Symbol} {a : α} :
      Runs p b us (.ok a) d → Runs (.relabel expected p) b us (.ok a) d
  | relabel_error {α : Type} {p : Program α} {expected expected' : Construct} {b d : Lookahead}
      {us : List Symbol} :
      Runs p b us (.error expected) d → Runs (.relabel expected' p) b us (.error expected') d

/-- A run of a program over a whole source, behind whose node nothing may follow. Behind the node,
the symbol that should be the end is taken, too. -/
inductive Parses {α : Type} (p : Program α) (source : String) :
    List Symbol → Except Construct α → Lookahead → Prop
  | ok {us : List Symbol} {a : α} {b : Lookahead} : Runs body p (.fresh source) us (.ok a) b →
      b.next.1 = .endOfInput → Parses p source (us ++ [b.next.1]) (.ok a) b.next.2
  | unfinished {us : List Symbol} {a : α} {b : Lookahead} :
      Runs body p (.fresh source) us (.ok a) b → b.next.1 ≠ .endOfInput →
        Parses p source (us ++ [b.next.1]) (.error .endOfInput) b.next.2
  | error {us : List Symbol} {expected : Construct} {b : Lookahead} :
      Runs body p (.fresh source) us (.error expected) b → Parses p source us (.error expected) b

end Runs

variable {body : (α : Type) → Nonterminal α → Program α} {source : String} {α : Type}

/-- A run takes what the source has ahead of the lookahead, and nothing is left out. -/
theorem Runs.took {p : Program α} {b d : Lookahead} {us : List Symbol}
    {outcome : Except Construct α} (h : Runs body p b us outcome d) {n : Nat}
    (hb : b.Stands source n) : d.Took source n us := by
  induction h generalizing n with
  | pure | fail => exact hb.took_nil
  | @ask _ op b =>
    rw [op.run_eq_call b]
    exact hb.took_call op.call
  | bind_ok _ _ ihp ihnext => exact (ihp hb).append (ihnext (ihp hb).stands)
  | item_ok _ _ _ ihmore ihitem ihrest =>
    have hmore := ihmore hb
    have hitem := ihitem hmore.stands
    exact hmore.append (hitem.append (ihrest hitem.stands))
  | item_error _ _ ihmore ihitem => exact (ihmore hb).append (ihitem (ihmore hb).stands)
  | bind_error _ ih | loop_end _ ih | loop_error _ ih | call _ ih | relabel_ok _ ih
  | relabel_error _ ih => exact ih hb

/-- Parsing takes what the source begins with, and nothing is left out. -/
theorem Parses.took {p : Program α} {b : Lookahead} {us : List Symbol}
    {outcome : Except Construct α} (h : Parses body p source us outcome b) :
    b.Took source 0 us := by
  cases h with
  | ok hrun _ | unfinished hrun _ =>
    have htook := hrun.took (Lookahead.stands_fresh source)
    exact htook.append (htook.stands.took_call .next)
  | error hrun => exact hrun.took (Lookahead.stands_fresh source)

theorem Parses.stands {p : Program α} {b : Lookahead} {us : List Symbol}
    {outcome : Except Construct α} (h : Parses body p source us outcome b) :
    b.Stands source us.length := by
  have hstands := h.took.stands
  rwa [Nat.zero_add] at hstands

theorem Runs.unique {p : Program α} {b d d' : Lookahead} {us us' : List Symbol}
    {outcome outcome' : Except Construct α} (h : Runs body p b us outcome d)
    (h' : Runs body p b us' outcome' d') : us = us' ∧ outcome = outcome' ∧ d = d' := by
  induction h generalizing us' d' with
  | pure | fail | ask =>
    cases h'
    exact ⟨rfl, rfl, rfl⟩
  -- wherever the second run could take another way, a part that both have would end in two ways
  | bind_ok hp hnext ihp ihnext =>
    cases h' with
    | bind_ok hp' hnext' =>
      obtain ⟨rfl, ⟨⟩, rfl⟩ := ihp hp'
      obtain ⟨rfl, rfl, rfl⟩ := ihnext hnext'
      exact ⟨rfl, rfl, rfl⟩
    | bind_error hp' => exact absurd (ihp hp').2.1 nofun
  | bind_error hp ihp =>
    cases h' with
    | bind_ok hp' hnext' => exact absurd (ihp hp').2.1 nofun
    | bind_error hp' =>
      obtain ⟨rfl, ⟨⟩, rfl⟩ := ihp hp'
      exact ⟨rfl, rfl, rfl⟩
  | loop_end hmore ihmore =>
    cases h' with
    | loop_end hmore' =>
      obtain ⟨rfl, -, rfl⟩ := ihmore hmore'
      exact ⟨rfl, rfl, rfl⟩
    | loop_error hmore' | item_ok hmore' | item_error hmore' =>
      exact absurd (ihmore hmore').2.1 nofun
  | loop_error hmore ihmore =>
    cases h' with
    | loop_error hmore' =>
      obtain ⟨rfl, ⟨⟩, rfl⟩ := ihmore hmore'
      exact ⟨rfl, rfl, rfl⟩
    | loop_end hmore' | item_ok hmore' | item_error hmore' =>
      exact absurd (ihmore hmore').2.1 nofun
  | item_ok hmore hitem hrest ihmore ihitem ihrest =>
    cases h' with
    | loop_end hmore' | loop_error hmore' => exact absurd (ihmore hmore').2.1 nofun
    | item_ok hmore' hitem' hrest' =>
      obtain ⟨rfl, -, rfl⟩ := ihmore hmore'
      obtain ⟨rfl, ⟨⟩, rfl⟩ := ihitem hitem'
      obtain ⟨rfl, rfl, rfl⟩ := ihrest hrest'
      exact ⟨rfl, rfl, rfl⟩
    | item_error hmore' hitem' =>
      obtain ⟨-, -, rfl⟩ := ihmore hmore'
      exact absurd (ihitem hitem').2.1 nofun
  | item_error hmore hitem ihmore ihitem =>
    cases h' with
    | loop_end hmore' | loop_error hmore' => exact absurd (ihmore hmore').2.1 nofun
    | item_ok hmore' hitem' =>
      obtain ⟨-, -, rfl⟩ := ihmore hmore'
      exact absurd (ihitem hitem').2.1 nofun
    | item_error hmore' hitem' =>
      obtain ⟨rfl, -, rfl⟩ := ihmore hmore'
      obtain ⟨rfl, ⟨⟩, rfl⟩ := ihitem hitem'
      exact ⟨rfl, rfl, rfl⟩
  | call _ ih =>
    cases h' with
    | call h' => exact ih h'
  | relabel_ok _ ih =>
    cases h' with
    | relabel_ok h' => exact ih h'
    | relabel_error h' => exact absurd (ih h').2.1 nofun
  | relabel_error _ ih =>
    cases h' with
    | relabel_ok h' => exact absurd (ih h').2.1 nofun
    | relabel_error h' =>
      obtain ⟨rfl, -, rfl⟩ := ih h'
      exact ⟨rfl, rfl, rfl⟩

theorem Parses.unique {p : Program α} {b b' : Lookahead} {us us' : List Symbol}
    {outcome outcome' : Except Construct α} (h : Parses body p source us outcome b)
    (h' : Parses body p source us' outcome' b') : us = us' ∧ outcome = outcome' ∧ b = b' := by
  cases h with
  | ok hrun hend =>
    cases h' with
    | ok hrun' _ =>
      obtain ⟨rfl, ⟨⟩, rfl⟩ := hrun.unique hrun'
      exact ⟨rfl, rfl, rfl⟩
    | unfinished hrun' hend' => exact absurd hend ((hrun.unique hrun').2.2 ▸ hend')
    | error hrun' => exact absurd (hrun.unique hrun').2.1 nofun
  | unfinished hrun hend =>
    cases h' with
    | ok hrun' hend' => exact absurd ((hrun.unique hrun').2.2 ▸ hend') hend
    | unfinished hrun' _ =>
      obtain ⟨rfl, ⟨⟩, rfl⟩ := hrun.unique hrun'
      exact ⟨rfl, rfl, rfl⟩
    | error hrun' => exact absurd (hrun.unique hrun').2.1 nofun
  | error hrun =>
    cases h' with
    | ok hrun' _ | unfinished hrun' _ => exact absurd (hrun.unique hrun').2.1 nofun
    | error hrun' =>
      obtain ⟨rfl, ⟨⟩, rfl⟩ := hrun.unique hrun'
      exact ⟨rfl, rfl, rfl⟩

end Program

end GraphQLText
