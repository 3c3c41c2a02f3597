import GraphQLText.Proofs.Progress.Runs

/-!
# Failing in sight

A report is about the symbol that was pulled last, so a program must not give up before it has looked
at the symbol ahead. Whether it has is told from how the program is written and from the nodes that
its parts end with.
-/

namespace GraphQLText

set_option autoImplicit false

namespace Lookahead

theorem held_peek (b : Lookahead) : b.peek.2.held.isSome = true := by
  cases hheld : b.held with
  | none => simp [peek, hheld]
  | some s => simp [peek, hheld]

end Lookahead

namespace Op

/-- After the step with the given answer, the symbol ahead has been looked at. Before it, it had been
if `seen`. -/
def LooksAhead {α : Type} : Op α → Prop → α → Prop
  | peek, _, _ | at? _, _, _ | start, _, _ => True
  | eat _, _, found => found = false
  | take .., _, _ => False
  | spanFrom _, seen, _ => seen

theorem held_run {α : Type} {op : Op α} {seen : Prop} {b : Lookahead} {a : α}
    (ha : (op.run b).1 = .ok a) (hb : seen → b.held.isSome = true) (h : op.LooksAhead seen a) :
    (op.run b).2.held.isSome = true := by
  cases op with
  | peek | start => exact b.held_peek
  | at? s => exact b.held_peek
  | eat t =>
    have hfound : (b.eat (.token t)).1 = false := (Except.ok.inj ha).trans h
    simp only [run, Lookahead.eat] at hfound ⊢
    split at hfound
    · cases hfound
    · next hnot =>
      rw [if_neg hnot]
      exact b.held_peek
  | take => exact h.elim
  | spanFrom => exact hb h

end Op

namespace Program

/-- Where the program ends with the given node, the symbol ahead has been looked at. Before the
program began, it had been if `seen`. -/
def LooksAhead {α : Type} : Program α → Prop → α → Prop
  | pure a, seen, node => node = a → seen
  | fail _, _, _ => True
  | ask op, seen, node => op.LooksAhead seen node
  | bind p next, seen, node => ∀ a, (next a).LooksAhead (p.LooksAhead seen a) node
  | loop more _ _, _, _ => more.LooksAhead False false
  | call _, _, _ => False
  | relabel _ p, seen, node => p.LooksAhead seen node

/-- The program gives up only where the symbol ahead has been looked at. -/
def FailsInSight {α : Type} : Program α → Prop → Prop
  | fail _, seen => seen
  | pure _, _ | ask _, _ | call _, _ => True
  | bind p next, seen => p.FailsInSight seen ∧ ∀ a, (next a).FailsInSight (p.LooksAhead seen a)
  | loop more item _, _ => more.FailsInSight False ∧ item.FailsInSight False
  | relabel _ p, seen => p.FailsInSight seen

variable {α : Type} {seen seen' : Prop}

theorem LooksAhead.mono {p : Program α} {node : α} (h : p.LooksAhead seen node)
    (hseen : seen → seen') : p.LooksAhead seen' node := by
  induction p generalizing seen seen' with
  | pure a => exact fun hnode => hseen (h hnode)
  | fail => trivial
  | ask op =>
    cases op with
    | spanFrom => exact hseen h
    | _ => exact h
  | bind p next ihp ihnext => exact fun a => ihnext a (h a) fun ha => ihp ha hseen
  | loop => exact h
  | call => exact h.elim
  | relabel _ p ih => exact ih h hseen

theorem FailsInSight.mono {p : Program α} (h : p.FailsInSight seen) (hseen : seen → seen') :
    p.FailsInSight seen' := by
  induction p generalizing seen seen' with
  | fail => exact hseen h
  | bind p next ihp ihnext =>
    exact ⟨ihp h.1 hseen, fun a => ihnext a (h.2 a) fun ha => ha.mono hseen⟩
  | relabel _ p ih => exact ih h hseen
  | _ => exact h

/-- The lookahead that a run ends with holds the symbol back that was looked at. -/
theorem Runs.held {body : (α : Type) → Nonterminal α → Program α} {p : Program α} {b d : Lookahead}
    {us : List Symbol} {node : α} (h : Runs body p b us (.ok node) d) (hb : seen → b.held.isSome = true)
    (hlooks : p.LooksAhead seen node) : d.held.isSome = true := by
  generalize houtcome : Except.ok node = outcome at h
  induction h generalizing seen with
  | pure => exact hb (hlooks (Except.ok.inj houtcome))
  | ask => exact Op.held_run houtcome.symm hb hlooks
  | bind_ok hp _ ihp ihnext => exact ihnext (fun ha => ihp hb ha rfl) (hlooks _) houtcome
  | loop_end _ ihmore => exact ihmore False.elim hlooks rfl
  | item_ok _ _ _ _ _ ihrest => exact ihrest False.elim hlooks houtcome
  | call => exact hlooks.elim
  | relabel_ok _ ih => exact ih hb hlooks houtcome
  | _ => cases houtcome

end Program

end GraphQLText
