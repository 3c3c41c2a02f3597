import GraphQLText.Proofs.Progress.Sight
import GraphQLText.Proofs.Reading.Forward

/-!
# Programs come to an end

A program comes to an end if each item that it repeats takes a token, and if it takes a token before
it calls itself. Then it ends like the reader that it spells out, and behind the same tokens. If it
gives up only in sight, what it pulled last is what the reader fails at.
-/

namespace GraphQLText

set_option autoImplicit false

open Reader TokenStream

/-- Behind a reader that takes a token, more of the tokens were taken. -/
theorem Cursor.Stands.lt_of_consuming {source : String} {n m : Nat} {c d : Cursor} {α : Type}
    {r : Reader α} {a : α} (hc : c.Stands source n) (hd : d.Stands source m)
    (hconsuming : Consuming r) (hread : r c = .ok (a, d)) : n < m := by
  have hlength := hconsuming.length_lt c a d hread
  rw [hc.tokens, hd.tokens, List.length_drop, List.length_drop] at hlength
  omega

namespace Program

/-- Every item that the program repeats takes a token or fails. -/
def Productive {α : Type} : Program α → Prop
  | pure _ | fail _ | ask _ | call _ => True
  | bind p next => p.Productive ∧ ∀ a, (next a).Productive
  | loop more item _ => more.Productive ∧ item.Productive ∧ Consuming item.read
  | relabel _ p => p.Productive

/-- Nothing is called before a token is taken. -/
def Guarded {α : Type} : Program α → Prop
  | pure _ | fail _ | ask _ => True
  | call _ => False
  | bind p next => p.Guarded ∧ (Consuming p.read ∨ ∀ a, (next a).Guarded)
  | loop more item _ => more.Guarded ∧ item.Guarded
  | relabel _ p => p.Guarded

/-- A program may be called: it is the reader that is called, its items take tokens, it calls nothing
before it takes a token, and it gives up in sight only. -/
structure IsBody {α : Type} (n : Nonterminal α) (p : Program α) : Prop where
  read : p.read = n.read
  productive : p.Productive
  guarded : p.Guarded
  inSight : p.FailsInSight False

/-- The outcome of a run that takes the symbols from the place `n` on is that of a reader. A node
ends where it ends for the reader, and of all symbols the one at which the reader fails is pulled
last. -/
inductive Agrees (source : String) (n : Nat) (us : List Symbol) {α : Type} :
    Except Failure (α × Cursor) → Except Construct α → Lookahead → Prop
  | ok {a : α} {c : Cursor} {b : Lookahead} : c.Stands source (n + us.length) →
      Agrees source n us (.ok (a, c)) (.ok a) b
  | error {f : Failure} {k : Nat} {b : Lookahead} : f.place.Stands source k →
      b.pulled (n + us.length) = k + 1 → Agrees source n us (.error f) (.error f.expected) b

theorem Agrees.behind {source : String} {n : Nat} {us vs : List Symbol} {α : Type}
    {result : Except Failure (α × Cursor)} {outcome : Except Construct α} {b : Lookahead}
    (h : Agrees source (n + us.length) vs result outcome b) :
    Agrees source n (us ++ vs) result outcome b := by
  have hlength : n + us.length + vs.length = n + (us ++ vs).length := by
    rw [List.length_append, Nat.add_assoc]
  cases h with
  | ok hc => exact .ok (hlength ▸ hc)
  | error hplace hpulled => exact .error hplace (hlength ▸ hpulled)

section Steps

variable {source : String} {n : Nat} {b : Lookahead} {c : Cursor}

theorem next?_eq_nth (hc : c.Stands source n) : c.next? = (Sight.nth source n).symbol.token? := by
  rw [c.next?_eq_sight, hc.sight]

theorem advance_stands {t : Token} (hc : c.Stands source n) (ht : c.next? = some t) :
    c.advance.Stands source (n + 1) := by
  refine hc.advance (Nat.lt_of_not_le fun hle => ?_)
  rw [Cursor.next?, hc.tokens, List.drop_eq_nil_of_le hle] at ht
  cases ht

theorem token?_eq_some_iff {s : Symbol} {t : Token} : s.token? = some t ↔ s = .token t := by
  cases s <;> simp [Symbol.token?]

/-- Every question to a lookahead is answered like the same step of a reader. -/
theorem agrees_ask {α : Type} (op : Op α) (hb : b.Stands source n) (hc : c.Stands source n) :
    Agrees source n (op.call.taken b) (op.read c) (op.run b).1 (op.run b).2 := by
  cases op with
  | peek =>
    simp only [Op.read, Op.run, Reader.peek, Prod.map, hb.peek.1, next?_eq_nth hc]
    exact .ok hc
  | at? s =>
    simp only [Op.read, Op.run, Prod.map, (hb.at? s).1, hc.sight]
    exact .ok hc
  | eat t =>
    have hafter := hb.add_length_taken (.eat (.token t))
    rw [Call.after] at hafter
    have hiff := token?_eq_some_iff (s := (Sight.nth source n).symbol) (t := t)
    rw [← next?_eq_nth hc] at hiff
    simp only [Op.read, Op.run, Reader.eat, Prod.map, (hb.eat (.token t)).1]
    by_cases ht : c.next? = some t
    · rw [if_pos (hiff.mp ht)] at hafter
      rw [if_pos ht, hiff.mp ht, beq_self_eq_true]
      exact .ok (hafter ▸ advance_stands hc ht)
    · rw [if_neg fun h => ht (hiff.mpr h)] at hafter
      rw [if_neg ht, beq_eq_false_iff_ne.mpr fun h => ht (hiff.mpr h)]
      exact .ok (hafter.symm ▸ hc)
  | take expected accept =>
    simp only [Op.read, Op.run, Reader.token, hb.next.1, ← next?_eq_nth hc]
    cases haccept : c.next?.bind accept with
    | some a =>
      obtain ⟨t, ht, -⟩ := Option.bind_eq_some_iff.mp haccept
      exact .ok (advance_stands hc ht)
    | none => exact .error (f := ⟨expected, c⟩) hc (b.pulled_next (n + 1))
  | start =>
    simp only [Op.read, Op.run, Reader.nextStart, Prod.map, hb.start.1, c.nextSpan_eq_sight,
      hc.sight]
    exact .ok hc
  | spanFrom position =>
    simp only [Op.read, Op.run, Lookahead.spanFrom, hb.takenEnd, hc.lastEnd]
    exact .ok hc

end Steps

section Simulation

variable {body : (α : Type) → Nonterminal α → Program α} {source : String}

/-- Where `n` symbols were taken, and the one ahead has been looked at if `seen`, the program has a
run, and it ends like the reader. -/
def Simulates (body : (α : Type) → Nonterminal α → Program α) (source : String) (n : Nat)
    (seen : Prop) {α : Type} (p : Program α) : Prop :=
  ∀ b c, b.Stands source n → c.Stands source n → (seen → b.held.isSome = true) →
    ∃ us outcome d, Runs body p b us outcome d ∧ Agrees source n us (p.read c) outcome d

variable {α β : Type} {n : Nat} {seen : Prop}

theorem Simulates.of_unseen {p : Program α} (h : Simulates body source n False p) :
    Simulates body source n seen p :=
  fun b c hb hc _ => h b c hb hc False.elim

theorem Simulates.bind {p : Program α} {next : α → Program β} (hp : Simulates body source n seen p)
    (hnext : ∀ a m, n ≤ m → (Consuming p.read → n < m) → m ≤ (ofText source).tokens.length →
      Simulates body source m (p.LooksAhead seen a) (next a)) :
    Simulates body source n seen (p.bind next) := by
  intro b c hb hc hseen
  obtain ⟨us, outcome, d, hrun, hagrees⟩ := hp b c hb hc hseen
  generalize hread : p.read c = result at hagrees
  cases hagrees with
  | @ok a e _ he =>
    have hd := (hrun.took hb).stands
    obtain ⟨vs, outcome, f, hrun', hagrees⟩ :=
      hnext a _ (Nat.le_add_right n _) (fun hconsuming => hc.lt_of_consuming he hconsuming hread) he.le d e hd he
        fun hlooks => hrun.held hseen hlooks
    refine ⟨us ++ vs, outcome, f, .bind_ok hrun hrun', ?_⟩
    rw [Program.read, bind_apply, hread]
    exact hagrees.behind
  | error hplace hpulled =>
    refine ⟨us, _, d, .bind_error hrun, ?_⟩
    rw [Program.read, bind_apply, hread]
    exact .error hplace hpulled

theorem Simulates.relabel {p : Program α} {expected : Construct}
    (hp : Simulates body source n seen p) : Simulates body source n seen (p.relabel expected) := by
  intro b c hb hc hseen
  obtain ⟨us, outcome, d, hrun, hagrees⟩ := hp b c hb hc hseen
  generalize hread : p.read c = result at hagrees
  cases hagrees with
  | ok he =>
    refine ⟨us, _, d, .relabel_ok hrun, ?_⟩
    rw [Program.read, Reader.relabel, hread]
    exact .ok he
  | @error f k _ hplace hpulled =>
    refine ⟨us, _, d, .relabel_error hrun, ?_⟩
    rw [Program.read, Reader.relabel, hread]
    exact .error (f := { f with expected }) hplace hpulled

theorem read_loop (more : Program Bool) (item : Program α) (finish : List α → β) (c : Cursor) :
    (loop more item finish).read c =
      match Reader.whileMore more.read item.read c with
      | .ok (as, d) => .ok (finish as, d)
      | .error f => .error f := by
  rw [Program.read, bind_apply]
  cases Reader.whileMore more.read item.read c <;> rfl

/-- Behind an item that takes a token, the loop goes on with the item put before what it finishes. -/
theorem read_loop_of_item {more : Program Bool} {item : Program α} {finish : List α → β}
    {c d e : Cursor} {a : α} (hmore : more.read c = .ok (true, d)) (hitem : item.read d = .ok (a, e))
    (hlt : e.tokens.length < c.tokens.length) :
    (loop more item finish).read c = (loop more item fun as => finish (a :: as)).read e := by
  rw [read_loop, read_loop, Reader.whileMore, hmore]
  simp only [hitem, if_pos hlt]
  cases Reader.whileMore more.read item.read e <;> rfl

theorem Simulates.loop {more : Program Bool} {item : Program α} (hconsuming : Consuming item.read)
    (hmore : ∀ m, n ≤ m → m ≤ (ofText source).tokens.length → Simulates body source m False more)
    (hitem : ∀ m, n ≤ m → m ≤ (ofText source).tokens.length → Simulates body source m False item)
    (finish : List α → β) : Simulates body source n False (loop more item finish) := by
  induction hleft : (ofText source).tokens.length - n using Nat.strongRecOn
    generalizing n finish with
  | ind left ih =>
    intro b c hb hc _
    obtain ⟨us, outcome, d, hrun, hagrees⟩ := hmore n (Nat.le_refl n) hc.le b c hb hc False.elim
    have hd := (hrun.took hb).stands
    generalize hread : more.read c = result at hagrees
    cases hagrees with
    | error hplace hpulled =>
      refine ⟨us, _, d, .loop_error hrun, ?_⟩
      rw [read_loop, Reader.whileMore, hread]
      exact .error hplace hpulled
    | @ok more? c' _ hc' =>
      cases more? with
      | false =>
        refine ⟨us, _, d, .loop_end hrun, ?_⟩
        rw [read_loop, Reader.whileMore, hread]
        exact .ok hc'
      | true =>
        obtain ⟨vs, outcome, e, hrun', hagrees'⟩ :=
          hitem _ (Nat.le_add_right n _) hc'.le d c' hd hc' False.elim
        generalize hread' : item.read c' = result' at hagrees'
        cases hagrees' with
        | error hplace hpulled =>
          refine ⟨us ++ vs, _, e, .item_error hrun hrun', ?_⟩
          rw [read_loop, Reader.whileMore, hread]
          simp only [hread']
          exact .behind (.error hplace hpulled)
        | @ok a c'' _ hc'' =>
          have htook := hc'.lt_of_consuming hc'' hconsuming hread'
          have hle := hc''.le
          have hlt : c''.tokens.length < c.tokens.length := by
            rw [hc.tokens, hc''.tokens, List.length_drop, List.length_drop]
            omega
          obtain ⟨ws, outcome, f, hrest, hagrees''⟩ := ih _ (by omega)
            (fun k hk => hmore k (by omega)) (fun k hk => hitem k (by omega))
            (fun as => finish (a :: as)) rfl e c'' (hrun'.took hd).stands hc'' False.elim
          refine ⟨us ++ (vs ++ ws), outcome, f, .item_ok hrun hrun' hrest, ?_⟩
          rw [read_loop_of_item hread hread' hlt]
          exact hagrees''.behind.behind

theorem Simulates.call {t : Nonterminal α} (hbody : IsBody t (body _ t))
    (h : Simulates body source n False (body _ t)) : Simulates body source n False (call t) := by
  intro b c hb hc hseen
  obtain ⟨us, outcome, d, hrun, hagrees⟩ := h b c hb hc hseen
  rw [hbody.read] at hagrees
  exact ⟨us, outcome, d, .call hrun, hagrees⟩

/-- The step of the induction over the tokens that are left: what holds behind the next token holds
here, if nothing is called here or else what is called is known. -/
theorem simulates_of_later {p : Program α} (hp : p.Productive) (hsight : p.FailsInSight seen)
    (hlater : ∀ m, n < m → m ≤ (ofText source).tokens.length → ∀ {β : Type} (q : Program β)
      {seen : Prop}, q.Productive → q.FailsInSight seen → Simulates body source m seen q)
    (hcalls : p.Guarded ∨
      ∀ {β : Type} (t : Nonterminal β), Simulates body source n False (.call t)) :
    Simulates body source n seen p := by
  -- at a place that is not before this one, the claim holds here or it was known
  have hfrom : ∀ {β : Type} (q : Program β), q.Productive → q.FailsInSight False →
      Simulates body source n False q → ∀ m, n ≤ m → m ≤ (ofText source).tokens.length →
        Simulates body source m False q := by
    intro β q hq hsight hhere m hm hle
    rcases Nat.eq_or_lt_of_le hm with rfl | hlt
    · exact hhere
    · exact hlater m hlt hle q hq hsight
  induction p generalizing seen with
  | pure a => exact fun b c _ hc _ => ⟨[], _, b, .pure, .ok hc⟩
  | fail expected =>
    intro b c _ hc hseen
    exact ⟨[], _, b, .fail, .error (f := ⟨expected, c⟩) hc (if_pos (hseen hsight))⟩
  | ask op => exact fun b c hb hc _ => ⟨_, _, _, .ask, agrees_ask op hb hc⟩
  | bind p next ihp ihnext =>
    have hhere := ihp hp.1 hsight.1 (hcalls.imp And.left id)
    refine hhere.bind fun a m hm hlt hle => ?_
    rcases Nat.eq_or_lt_of_le hm with rfl | hltm
    · refine ihnext a (hp.2 a) (hsight.2 a) (hcalls.imp (fun hguarded => ?_) id)
      rcases hguarded.2 with hconsuming | hnext
      · exact absurd (hlt hconsuming) (Nat.lt_irrefl n)
      · exact hnext a
    · exact hlater m hltm hle _ (hp.2 a) (hsight.2 a)
  | loop more item finish ihmore ihitem =>
    have hmore := ihmore hp.1 hsight.1 (hcalls.imp And.left id)
    have hitem := ihitem hp.2.1 hsight.2 (hcalls.imp And.right id)
    exact .of_unseen (.loop hp.2.2 (hfrom more hp.1 hsight.1 hmore)
      (hfrom item hp.2.1 hsight.2 hitem) finish)
  | call t =>
    rcases hcalls with hguarded | hcalls
    · exact hguarded.elim
    · exact .of_unseen (hcalls t)
  | relabel expected p ih => exact (ih hp hsight (hcalls.imp id id)).relabel

/-- Every program whose items take tokens and that gives up in sight only has a run from wherever
there may be tokens ahead. -/
theorem simulates (hbody : ∀ (α : Type) (t : Nonterminal α), IsBody t (body α t)) {p : Program α}
    (hp : p.Productive) (hsight : p.FailsInSight seen) (hn : n ≤ (ofText source).tokens.length) :
    Simulates body source n seen p := by
  induction hleft : (ofText source).tokens.length - n using Nat.strongRecOn
    generalizing α n seen with
  | ind left ih =>
    have hlater : ∀ m, n < m → m ≤ (ofText source).tokens.length → ∀ {β : Type} (q : Program β)
        {seen : Prop}, q.Productive → q.FailsInSight seen → Simulates body source m seen q :=
      fun m hm hle _ q _ hq hsight => ih _ (by omega) hq hsight hle rfl
    -- a body calls nothing here, so its run is found before that of any call
    refine simulates_of_later hp hsight hlater (.inr fun t => .call (hbody _ t) ?_)
    exact simulates_of_later (hbody _ t).productive (hbody _ t).inSight hlater
      (.inl (hbody _ t).guarded)

end Simulation

end Program

end GraphQLText
