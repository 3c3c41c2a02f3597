import GraphQLText.Proofs.Locality.Report
import GraphQLText.Proofs.Progress.Termination

/-!
# The report at the end of a run

A run over a source leaves a lookahead behind, and what is reported is told from that alone: from the
symbol that was pulled last, whether it was taken or only looked at. It is the last thing of the
source that has a part in the report.
-/

namespace GraphQLText

set_option autoImplicit false

open Reader TokenStream

namespace Production

variable {p : Production} {source : String}

/-- Where the reader of a production fails, the run ends with what it pulled last being what the
reader fails at. -/
theorem exists_parses_error {f : Failure} (h : p.read.run (ofText source) = .error f) :
    ∃ us b k, Program.Parses Nonterminal.body p.program source us (.error f.expected) b ∧
      f.place.Stands source k ∧ b.pulled us.length = k + 1 := by
  obtain ⟨us, b, hparses, -, hpulled⟩ := (p.simulates_program source).parses
  rw [p.read_program, h] at hparses
  rw [p.read_program] at hpulled
  obtain ⟨k, hplace, hpulled⟩ := hpulled f h
  exact ⟨us, b, k, hparses, hplace, hpulled⟩

/-- Parsing gives what the run ends with, and reports what the lookahead then says. -/
theorem parse_eq_of_parses {outcome : Except Construct p.Node} {us : List Symbol} {b : Lookahead}
    (h : Program.Parses Nonterminal.body p.program source us outcome b) :
    p.parse source = outcome.mapError fun expected => b.diagnostic expected := by
  obtain ⟨vs, d, hparses, -, hpulled⟩ := (p.simulates_program source).parses
  obtain ⟨rfl, rfl, rfl⟩ := h.unique hparses
  rw [p.read_program] at hpulled ⊢
  rw [Production.parse, Reader.parse]
  cases hrun : p.read.run (ofText source) with
  | ok node => rfl
  | error f =>
    obtain ⟨k, hplace, hpulled⟩ := hpulled f hrun
    exact congrArg Except.error (hparses.stands.diagnostic_eq hplace hpulled f.expected).symm

/-- Where a source is turned down, the report tells of the last thing that was taken from it. A run
of the production pulls that thing last, and the report is what its lookahead then says. -/
theorem tells_of_parse {e : Diagnostic} (h : p.parse source = .error e) :
    ∃ n pull expected taken b, p.read.LastPull (ofText source) n pull ∧
      Program.Parses Nonterminal.body p.program source taken (.error expected) b ∧
      b.pulled taken.length = n + 1 ∧ e = b.diagnostic expected ∧ e.Tells source pull := by
  obtain ⟨f, hf, rfl⟩ := parse_eq_error.mp h
  obtain ⟨taken, b, k, hparses, hplace, hpulled⟩ := exists_parses_error hf
  obtain ⟨before, htokens⟩ := (exists_tokens_of_run hf).1
  -- both count the tokens before the place of the failure
  have hlength : before.length = k := by
    have htaken := congrArg List.length htokens
    rw [List.length_append, hplace.tokens, List.length_drop] at htaken
    have hle := hplace.le
    omega
  have hreport := parse_eq_of_parses hparses
  rw [h] at hreport
  exact ⟨before.length, f.place.pull, f.expected, taken, b, lastPull_of_run hf htokens, hparses,
    by rw [hpulled, hlength], Except.error.inj hreport, Failure.tells_of_run hf⟩

/-- A broken number, which is shown with all that it runs into. -/
theorem tells_of_parse_brokenNumber :
    ∃ e, Production.parse .type "[A 0x.1_]" = .error e ∧
      ∃ n pull expected taken b, (Production.read .type).LastPull (ofText "[A 0x.1_]") n pull ∧
        Program.Parses Nonterminal.body (Production.program .type) "[A 0x.1_]" taken
          (.error expected) b ∧
        b.pulled taken.length = n + 1 ∧ e = b.diagnostic expected ∧
        e.Tells "[A 0x.1_]" pull := by
  have hfail : (Production.parse .type "[A 0x.1_]").toOption.isSome = false := by
    decide +kernel
  cases h : Production.parse .type "[A 0x.1_]" with
  | error e => exact ⟨e, rfl, tells_of_parse h⟩
  | ok node => simp [h, Except.toOption] at hfail

end Production

end GraphQLText
