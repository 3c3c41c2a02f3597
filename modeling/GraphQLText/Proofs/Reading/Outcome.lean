import GraphQLText.Reader.Parse

/-!
# What readers do

Two ways of saying what comes of a reader at a cursor. `Always` tells what holds whenever the
reader succeeds, and `Ends` that it does succeed, too. Both can be worked out from a reader along
its text, so each rule here is about one step of a reader.
-/

namespace GraphQLText.Reader

set_option autoImplicit false

variable {α β : Type}

/-- Whenever the reader succeeds, its node and the place behind it are as said. -/
def Always (r : Reader α) (c : Cursor) (Q : α → Cursor → Prop) : Prop :=
  ∀ a d, r c = .ok (a, d) → Q a d

/-- The reader succeeds, and its node and the place behind it are as said. -/
def Ends (r : Reader α) (c : Cursor) (Q : α → Cursor → Prop) : Prop :=
  ∃ a d, r c = .ok (a, d) ∧ Q a d

theorem Always.mono {r : Reader α} {c : Cursor} {P Q : α → Cursor → Prop} (h : Always r c P)
    (hPQ : ∀ a d, P a d → Q a d) : Always r c Q :=
  fun a d hr => hPQ a d (h a d hr)

theorem Ends.mono {r : Reader α} {c : Cursor} {P Q : α → Cursor → Prop} (h : Ends r c P)
    (hPQ : ∀ a d, P a d → Q a d) : Ends r c Q := by
  obtain ⟨a, d, hr, hp⟩ := h
  exact ⟨a, d, hr, hPQ a d hp⟩

theorem Always.and {r : Reader α} {c : Cursor} {P Q : α → Cursor → Prop} (hp : Always r c P)
    (hq : Always r c Q) : Always r c fun a d => P a d ∧ Q a d :=
  fun a d hr => ⟨hp a d hr, hq a d hr⟩

section Steps

variable {c : Cursor} {Q : β → Cursor → Prop}

theorem bind_apply (r : Reader α) (f : α → Reader β) (c : Cursor) :
    (r >>= f) c =
      match r c with
      | .ok (a, d) => f a d
      | .error failure => .error failure := by
  change Except.bind (r c) (fun p => f p.1 p.2) = _
  cases r c with
  | ok p => rfl
  | error failure => rfl

theorem always_bind {r : Reader α} {f : α → Reader β} :
    Always (r >>= f) c Q ↔ Always r c fun a d => Always (f a) d Q := by
  constructor
  · intro h a d hr b e hf
    apply h
    rw [bind_apply, hr]
    exact hf
  · intro h b e hb
    rw [bind_apply] at hb
    cases hr : r c with
    | ok p =>
      rw [hr] at hb
      exact h p.1 p.2 hr b e hb
    | error failure =>
      rw [hr] at hb
      exact absurd hb (by simp)

theorem ends_bind {r : Reader α} {f : α → Reader β} :
    Ends (r >>= f) c Q ↔ Ends r c fun a d => Ends (f a) d Q := by
  constructor
  · rintro ⟨b, e, hb, hq⟩
    rw [bind_apply] at hb
    cases hr : r c with
    | ok p =>
      rw [hr] at hb
      exact ⟨p.1, p.2, hr, b, e, hb, hq⟩
    | error failure =>
      rw [hr] at hb
      exact absurd hb (by simp)
  · rintro ⟨a, d, hr, b, e, hf, hq⟩
    refine ⟨b, e, ?_, hq⟩
    rw [bind_apply, hr]
    exact hf

theorem always_bind_of_ok {r : Reader α} {f : α → Reader β} {a : α} {d : Cursor}
    (h : r c = .ok (a, d)) : Always (r >>= f) c Q ↔ Always (f a) d Q := by
  unfold Always
  rw [bind_apply, h]

theorem ends_bind_of_ok {r : Reader α} {f : α → Reader β} {a : α} {d : Cursor}
    (h : r c = .ok (a, d)) : Ends (r >>= f) c Q ↔ Ends (f a) d Q := by
  unfold Ends
  rw [bind_apply, h]

theorem always_pure {b : β} : Always (pure b) c Q ↔ Q b c := by
  constructor
  · intro h
    exact h b c rfl
  · rintro h a d ⟨rfl, rfl⟩
    exact h

theorem ends_pure {b : β} : Ends (pure b) c Q ↔ Q b c := by
  constructor
  · rintro ⟨a, d, ⟨rfl, rfl⟩, hq⟩
    exact hq
  · intro h
    exact ⟨b, c, rfl, h⟩

theorem always_map {r : Reader α} {f : α → β} :
    Always (f <$> r) c Q ↔ Always r c fun a d => Q (f a) d := by
  rw [← bind_pure_comp, always_bind]
  simp only [always_pure]

theorem ends_map {r : Reader α} {f : α → β} :
    Ends (f <$> r) c Q ↔ Ends r c fun a d => Q (f a) d := by
  rw [← bind_pure_comp, ends_bind]
  simp only [ends_pure]

theorem always_ite {p : Prop} [Decidable p] {r s : Reader β} :
    Always (if p then r else s) c Q ↔ (p → Always r c Q) ∧ (¬p → Always s c Q) := by
  split <;> simp_all

theorem ends_ite {p : Prop} [Decidable p] {r s : Reader β} :
    Ends (if p then r else s) c Q ↔ (p → Ends r c Q) ∧ (¬p → Ends s c Q) := by
  split <;> simp_all

theorem always_fail {expected : Construct} : Always (fail expected) c Q := by
  intro a d h
  simp [fail] at h

theorem always_located {r : Reader (Span → β)} :
    Always (located r) c Q ↔
      Always r c fun node d =>
        Q (node ⟨c.nextSpan.start, max d.lastEnd c.nextSpan.start⟩) d := by
  constructor
  · intro h node d hr
    apply h
    simp only [located, hr]
    rfl
  · intro h a d hl
    simp only [located] at hl
    cases hr : r c with
    | ok p =>
      rw [hr] at hl
      obtain ⟨rfl, rfl⟩ := hl
      exact h p.1 p.2 hr
    | error failure =>
      rw [hr] at hl
      exact absurd hl (by simp [bind, Except.bind])

theorem ends_located {r : Reader (Span → β)} :
    Ends (located r) c Q ↔
      Ends r c fun node d =>
        Q (node ⟨c.nextSpan.start, max d.lastEnd c.nextSpan.start⟩) d := by
  constructor
  · rintro ⟨a, d, hl, hq⟩
    simp only [located] at hl
    cases hr : r c with
    | ok p =>
      rw [hr] at hl
      obtain ⟨rfl, rfl⟩ := hl
      exact ⟨p.1, p.2, hr, hq⟩
    | error failure =>
      rw [hr] at hl
      exact absurd hl (by simp [bind, Except.bind])
  · rintro ⟨node, d, hr, hq⟩
    refine ⟨_, d, ?_, hq⟩
    simp only [located, hr]
    rfl

theorem always_relabel {r : Reader β} {expected : Construct} :
    Always (relabel expected r) c Q ↔ Always r c Q := by
  unfold Always relabel
  cases r c <;> simp

theorem ends_relabel {r : Reader β} {expected : Construct} :
    Ends (relabel expected r) c Q ↔ Ends r c Q := by
  unfold Ends relabel
  cases r c <;> simp

theorem always_token {expected : Construct} {accept : Token → Option β} :
    Always (token expected accept) c Q ↔
      ∀ t b, c.next? = some t → accept t = some b → Q b c.advance := by
  constructor
  · intro h t b hn ha
    apply h
    simp [token, hn, ha]
  · intro h b d hr
    simp only [token] at hr
    split at hr
    · next b' heq =>
      obtain ⟨t, hn, ha⟩ := Option.bind_eq_some_iff.mp heq
      obtain ⟨rfl, rfl⟩ := hr
      exact h t _ hn ha
    · exact absurd hr (by simp)

theorem ends_token {expected : Construct} {accept : Token → Option β} :
    Ends (token expected accept) c Q ↔
      ∃ t b, c.next? = some t ∧ accept t = some b ∧ Q b c.advance := by
  constructor
  · rintro ⟨b, d, hr, hq⟩
    simp only [token] at hr
    split at hr
    · next b' heq =>
      obtain ⟨t, hn, ha⟩ := Option.bind_eq_some_iff.mp heq
      obtain ⟨rfl, rfl⟩ := hr
      exact ⟨t, _, hn, ha, hq⟩
    · exact absurd hr (by simp)
  · rintro ⟨t, b, hn, ha, hq⟩
    refine ⟨b, c.advance, ?_, hq⟩
    simp [token, hn, ha]

theorem always_nested {read : Nat → Reader β} :
    Always (nested read) c Q ↔ Always (read (c.tokens.length + 1)) c Q :=
  Iff.rfl

theorem ends_nested {read : Nat → Reader β} :
    Ends (nested read) c Q ↔ Ends (read (c.tokens.length + 1)) c Q :=
  Iff.rfl

end Steps

section Tokens

variable {c : Cursor} {t : Token} {expected : Construct}

theorem always_peek {Q : Option Token → Cursor → Prop} : Always peek c Q ↔ Q c.next? c := by
  constructor
  · intro h
    exact h _ _ rfl
  · rintro h a d ⟨rfl, rfl⟩
    exact h

theorem ends_peek {Q : Option Token → Cursor → Prop} : Ends peek c Q ↔ Q c.next? c := by
  constructor
  · rintro ⟨a, d, ⟨rfl, rfl⟩, hq⟩
    exact hq
  · intro h
    exact ⟨_, _, rfl, h⟩

theorem always_at? {Q : Bool → Cursor → Prop} :
    Always (at? t) c Q ↔ Q (c.next? == some t) c := by
  constructor
  · intro h
    exact h _ _ rfl
  · intro h a d hr
    simp only [at?, Except.ok.injEq, Prod.mk.injEq] at hr
    rw [← hr.1, ← hr.2]
    exact h

theorem ends_at? {Q : Bool → Cursor → Prop} :
    Ends (at? t) c Q ↔ Q (c.next? == some t) c := by
  constructor
  · rintro ⟨a, d, hr, hq⟩
    simp only [at?, Except.ok.injEq, Prod.mk.injEq] at hr
    rwa [← hr.1, ← hr.2] at hq
  · intro h
    exact ⟨_, _, rfl, h⟩

theorem always_skip {Q : Unit → Cursor → Prop} : Always skip c Q ↔ Q () c.advance := by
  constructor
  · intro h
    exact h _ _ rfl
  · rintro h a d ⟨rfl, rfl⟩
    exact h

theorem ends_skip {Q : Unit → Cursor → Prop} : Ends skip c Q ↔ Q () c.advance := by
  constructor
  · rintro ⟨a, d, ⟨rfl, rfl⟩, hq⟩
    exact hq
  · intro h
    exact ⟨_, _, rfl, h⟩

theorem always_expect {Q : Unit → Cursor → Prop} :
    Always (expect t expected) c Q ↔ (c.next? = some t → Q () c.advance) := by
  rw [expect, always_token]
  constructor
  · intro h hn
    exact h t () hn (by simp)
  · intro h u _ hu ha
    simp only [Option.ite_none_right_eq_some] at ha
    rw [ha.1] at hu
    exact h hu

theorem ends_expect {Q : Unit → Cursor → Prop} :
    Ends (expect t expected) c Q ↔ c.next? = some t ∧ Q () c.advance := by
  rw [expect, ends_token]
  constructor
  · rintro ⟨u, _, hu, ha, hq⟩
    simp only [Option.ite_none_right_eq_some] at ha
    rw [ha.1] at hu
    exact ⟨hu, hq⟩
  · rintro ⟨hn, hq⟩
    exact ⟨t, (), hn, by simp, hq⟩

theorem always_nameToken {Q : String → Cursor → Prop} :
    Always (nameToken expected) c Q ↔ ∀ s, c.next? = some (.name s) → Q s c.advance := by
  rw [nameToken, always_token]
  constructor
  · intro h s hs
    exact h _ s hs rfl
  · intro h u s hu hs
    cases u with
    | name s' =>
      obtain rfl := Option.some.inj hs
      exact h _ hu
    | _ => exact absurd hs (by simp)

theorem ends_nameToken {Q : String → Cursor → Prop} :
    Ends (nameToken expected) c Q ↔ ∃ s, c.next? = some (.name s) ∧ Q s c.advance := by
  rw [nameToken, ends_token]
  constructor
  · rintro ⟨u, s, hu, hs, hq⟩
    cases u with
    | name s' =>
      obtain rfl := Option.some.inj hs
      exact ⟨_, hu, hq⟩
    | _ => exact absurd hs (by simp)
  · rintro ⟨s, hs, hq⟩
    exact ⟨_, s, hs, rfl, hq⟩

theorem always_eat {Q : Bool → Cursor → Prop} :
    Always (eat t) c Q ↔
      (c.next? = some t → Q true c.advance) ∧ (c.next? ≠ some t → Q false c) := by
  unfold Always eat
  split <;> simp_all

theorem ends_eat {Q : Bool → Cursor → Prop} :
    Ends (eat t) c Q ↔
      (c.next? = some t → Q true c.advance) ∧ (c.next? ≠ some t → Q false c) := by
  unfold Ends eat
  split <;> simp_all

end Tokens

end GraphQLText.Reader
