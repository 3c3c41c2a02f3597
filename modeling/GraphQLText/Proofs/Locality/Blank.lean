import GraphQLText.Node.Shape
import GraphQLText.Proofs.Reading.Forward

/-!
# Readers do not see places

The tokens of a stream tell a reader what to do, and where they stand only tells it the spans of
nodes. So it does the same in a stream that is blank, whose tokens all stand at the beginning and take
no room, and the nodes that it makes there are those of the other stream without their spans.
-/

namespace GraphQLText

set_option autoImplicit false

def PlacedToken.blank (t : PlacedToken) : PlacedToken :=
  ⟨t.token, "", 0⟩

/-- The tokens are all that is left of blank ones. -/
theorem PlacedToken.map_blank_eq {ts ts' : List PlacedToken}
    (h : ts.map PlacedToken.token = ts'.map PlacedToken.token) :
    ts.map PlacedToken.blank = ts'.map PlacedToken.blank := by
  have hmap := congrArg (List.map fun t => (⟨t, "", 0⟩ : PlacedToken)) h
  rwa [List.map_map, List.map_map] at hmap

/-- The ending without what it stands behind and what it shows. -/
def Ending.blank : Ending → Ending
  | complete _ => complete 0
  | broken fault _ _ _ => broken fault "" "" 0

namespace Cursor

/-- The same tokens where none of them has a place. -/
def blank (c : Cursor) : Cursor :=
  ⟨c.tokens.map PlacedToken.blank, c.ending.blank, 0⟩

theorem next?_blank (c : Cursor) : c.blank.next? = c.next? := by
  obtain ⟨tokens, ending, lastEnd⟩ := c
  cases tokens <;> rfl

theorem blank_advance (c : Cursor) : c.advance.blank = c.blank.advance := by
  obtain ⟨tokens, ending, lastEnd⟩ := c
  cases tokens <;> rfl

theorem start_nextSpan_blank (c : Cursor) : c.blank.nextSpan.start = 0 := by
  obtain ⟨tokens, ending, lastEnd⟩ := c
  cases tokens with
  | nil => cases ending <;> rfl
  | cons t tokens => rfl

theorem isComplete_blank (c : Cursor) : c.blank.isComplete = c.isComplete := by
  obtain ⟨tokens, ending, lastEnd⟩ := c
  cases tokens with
  | nil => cases ending <;> rfl
  | cons t tokens => rfl

theorem length_tokens_blank (c : Cursor) : c.blank.tokens.length = c.tokens.length :=
  List.length_map _

end Cursor

namespace Reader

variable {α β γ δ : Type}

/-- The first outcome is that of a blank stream where the second one is that of the stream itself. -/
inductive Blanks (R : α → β → Prop) :
    Except Failure (α × Cursor) → Except Failure (β × Cursor) → Prop
  | ok {a : α} {b : β} {c : Cursor} : R a b → Blanks R (.ok (a, c.blank)) (.ok (b, c))
  | error (f : Failure) : Blanks R (.error ⟨f.expected, f.place.blank⟩) (.error f)

/-- The first reader does in every blank stream what the second one does in the stream itself. -/
def Forgets (R : α → β → Prop) (r : Reader α) (s : Reader β) : Prop :=
  ∀ c : Cursor, Blanks R (r c.blank) (s c)

/-- The reader makes the same nodes, without their spans, where no token has a place. -/
abbrev Unplaced [HasShape α] (r : Reader α) : Prop :=
  Forgets (fun a b => a = bare b) r r

variable {R : α → β → Prop} {r : Reader α} {s : Reader β}

theorem Blanks.of_ok {a : α} {d : Cursor} {y : Except Failure (β × Cursor)}
    (h : Blanks R (.ok (a, d)) y) : ∃ b c, y = .ok (b, c) ∧ R a b ∧ d = c.blank := by
  generalize hx : (.ok (a, d) : Except Failure (α × Cursor)) = x at h
  cases h with
  | ok hab =>
    cases hx
    exact ⟨_, _, rfl, hab, rfl⟩
  | error f => cases hx

theorem Blanks.of_error {e : Failure} {y : Except Failure (β × Cursor)}
    (h : Blanks R (.error e) y) : ∃ f, y = .error f ∧ e = ⟨f.expected, f.place.blank⟩ := by
  generalize hx : (.error e : Except Failure (α × Cursor)) = x at h
  cases h with
  | ok => cases hx
  | error f =>
    cases hx
    exact ⟨f, rfl, rfl⟩

theorem Blanks.bind {S : γ → δ → Prop} {f : α → Reader γ} {g : β → Reader δ} {d e : Cursor}
    (h : Blanks R (r d) (s e)) (hf : ∀ a b c, R a b → Blanks S (f a c.blank) (g b c)) :
    Blanks S ((r >>= f) d) ((s >>= g) e) := by
  rw [bind_apply, bind_apply]
  generalize r d = x at h ⊢
  generalize s e = y at h ⊢
  cases h with
  | ok hab => exact hf _ _ _ hab
  | error f => exact .error f

theorem Forgets.eq_ok {b : β} {c d : Cursor} (h : Forgets R r s) (hs : s c = .ok (b, d)) :
    ∃ a, r c.blank = .ok (a, d.blank) ∧ R a b := by
  have hc := h c
  rw [hs] at hc
  generalize r c.blank = x at hc
  cases hc with
  | ok hab => exact ⟨_, rfl, hab⟩

theorem Forgets.eq_error {c : Cursor} {f : Failure} (h : Forgets R r s) (hs : s c = .error f) :
    r c.blank = .error ⟨f.expected, f.place.blank⟩ := by
  have hc := h c
  rw [hs] at hc
  generalize r c.blank = x at hc
  cases hc with
  | error f => rfl

theorem Forgets.bind {S : γ → δ → Prop} {f : α → Reader γ} {g : β → Reader δ}
    (h : Forgets R r s) (hf : ∀ a b, R a b → Forgets S (f a) (g b)) :
    Forgets S (r >>= f) (s >>= g) :=
  fun c => (h c).bind fun a b d hab => hf a b hab d

theorem forgets_pure {a : α} {b : β} (h : R a b) :
    Forgets R (pure a : Reader α) (pure b : Reader β) :=
  fun _ => .ok h

theorem Forgets.map {S : γ → δ → Prop} {f : α → γ} {g : β → δ} (h : Forgets R r s)
    (hRS : ∀ a b, R a b → S (f a) (g b)) : Forgets S (f <$> r) (g <$> s) := by
  rw [← bind_pure_comp, ← bind_pure_comp]
  exact h.bind fun a b hab => forgets_pure (hRS a b hab)

theorem Forgets.ite {r' : Reader α} {s' : Reader β} {p q : Prop} [Decidable p] [Decidable q]
    (hpq : p ↔ q) (h : Forgets R r s) (h' : Forgets R r' s') :
    Forgets R (if p then r else r') (if q then s else s') := by
  by_cases hq : q
  · rwa [if_pos (hpq.mpr hq), if_pos hq]
  · rwa [if_neg fun hp => hq (hpq.mp hp), if_neg hq]

theorem forgets_fail {expected : Construct} :
    Forgets R (fail expected : Reader α) (fail expected : Reader β) :=
  fun c => .error ⟨expected, c⟩

theorem forgets_token {expected : Construct} {accept : Token → Option α} :
    Forgets Eq (token expected accept) (token expected accept) := by
  intro c
  simp only [token, Cursor.next?_blank, ← Cursor.blank_advance]
  generalize c.next?.bind accept = found
  cases found with
  | some a => exact .ok rfl
  | none => exact .error ⟨expected, c⟩

theorem forgets_expect {t : Token} {expected : Construct} :
    Forgets Eq (expect t expected) (expect t expected) :=
  forgets_token

theorem forgets_nameToken {expected : Construct} :
    Forgets Eq (nameToken expected) (nameToken expected) :=
  forgets_token

theorem forgets_skip : Forgets Eq skip skip := by
  intro c
  simp only [skip, ← Cursor.blank_advance]
  exact .ok rfl

theorem forgets_at? {t : Token} : Forgets Eq (at? t) (at? t) := by
  intro c
  simp only [at?, Cursor.next?_blank]
  exact .ok rfl

theorem forgets_eat {t : Token} : Forgets Eq (eat t) (eat t) := by
  intro c
  simp only [eat, Cursor.next?_blank, ← Cursor.blank_advance]
  split
  · exact .ok rfl
  · exact .ok rfl

theorem forgets_peek_bind {f : Option Token → Reader α} {g : Option Token → Reader β}
    (h : ∀ t, Forgets R (f t) (g t)) : Forgets R (peek >>= f) (peek >>= g) := by
  intro c
  rw [bind_apply, bind_apply]
  simp only [peek, Cursor.next?_blank]
  exact h c.next? c

theorem Forgets.ifAt {t : Token} {r' : Reader α} {s' : Reader β} (h : Forgets R r s)
    (h' : Forgets R r' s') :
    Forgets R (at? t >>= fun found => if found = true then r else r')
      (at? t >>= fun found => if found = true then s else s') := by
  refine forgets_at?.bind ?_
  rintro found _ rfl
  exact .ite Iff.rfl h h'

/-- Where no token has a place, the span of a node is that of a node in no text. -/
theorem Forgets.located {r : Reader (Span → α)} {s : Reader (Span → β)}
    (h : Forgets (fun f g => ∀ span, R (f Span.zero) (g span)) r s) :
    Forgets R (located r) (located s) := by
  intro c
  have hr : Reader.located r c.blank = (r >>= fun f => fun d =>
      .ok (f ⟨c.blank.nextSpan.start, max d.lastEnd c.blank.nextSpan.start⟩, d)) c.blank := rfl
  have hs : Reader.located s c = (s >>= fun g => fun d =>
      .ok (g ⟨c.nextSpan.start, max d.lastEnd c.nextSpan.start⟩, d)) c := rfl
  rw [hr, hs]
  refine h.bind (fun f g hfg d => ?_) c
  rw [Cursor.start_nextSpan_blank]
  exact .ok (hfg _)

theorem Unplaced.whole [HasShape α] {r : Reader α} (h : Unplaced r) : Unplaced (whole r) := by
  have hend : Forgets Eq endOfInput endOfInput := by
    intro c
    simp only [endOfInput, Cursor.isComplete_blank]
    split
    · exact .ok rfl
    · exact .error ⟨.endOfInput, c⟩
  refine h.bind ?_
  rintro _ a rfl
  exact hend.bind fun _ _ _ => forgets_pure rfl

theorem Forgets.relabel {expected : Construct} (h : Forgets R r s) :
    Forgets R (relabel expected r) (relabel expected s) := by
  intro c
  rw [Reader.relabel, Reader.relabel]
  have hc := h c
  generalize r c.blank = x at hc ⊢
  generalize s c = y at hc ⊢
  cases hc with
  | ok hab => exact .ok hab
  | error f => exact .error ⟨expected, f.place⟩

theorem Forgets.nested {r : Nat → Reader α} {s : Nat → Reader β}
    (h : ∀ depth, Forgets R (r depth) (s depth)) : Forgets R (nested r) (nested s) := by
  intro c
  rw [Reader.nested, Reader.nested, c.length_tokens_blank]
  exact h _ c

section Items

variable {item : Reader α} [HasShape α]

theorem Unplaced.whileMore {more : Reader Bool} (hmore : Forgets Eq more more)
    (h : Unplaced item) : Unplaced (whileMore more item) := by
  intro c
  induction hn : c.tokens.length using Nat.strongRecOn generalizing c with
  | ind n ih =>
    rw [whileMore_apply, whileMore_apply, c.length_tokens_blank]
    refine hmore.bind ?_ c
    rintro found _ rfl
    refine .ite Iff.rfl (h.bind ?_) (forgets_pure rfl)
    rintro _ a rfl e
    show Blanks _
      (if e.blank.tokens.length < c.tokens.length then
        (List.cons (bare a) <$> Reader.whileMore more item) e.blank else .ok ([bare a], e.blank))
      (if e.tokens.length < c.tokens.length then
        (List.cons a <$> Reader.whileMore more item) e else .ok ([a], e))
    rw [e.length_tokens_blank]
    split
    · next hlt =>
      rw [← bind_pure_comp, ← bind_pure_comp]
      refine (ih e.tokens.length (by omega) e rfl).bind ?_
      rintro _ as d rfl
      exact .ok rfl
    · exact .ok rfl

theorem Unplaced.untilClosed (h : Unplaced item) (close : Punctuator) :
    Unplaced (untilClosed close item) :=
  .whileMore (forgets_eat.map fun _ _ hb => congrArg not hb) h

theorem Unplaced.enclosed (h : Unplaced item) (opening close : Punctuator) :
    Unplaced (enclosed opening close item) := by
  refine forgets_eat.bind ?_
  rintro found _ rfl
  refine .ite Iff.rfl (h.bind ?_) (forgets_pure rfl)
  rintro _ a rfl
  refine (h.untilClosed close).bind ?_
  rintro _ as rfl
  exact forgets_pure rfl

theorem Unplaced.separated (h : Unplaced item) (separator : Punctuator) :
    Unplaced (separated separator item) := by
  refine forgets_eat.bind fun _ _ _ => h.bind ?_
  rintro _ a rfl
  refine (Unplaced.whileMore forgets_eat h).bind ?_
  rintro _ as rfl
  exact forgets_pure rfl

theorem Unplaced.behind (h : Unplaced item) (t : Token) : Unplaced (behind? t item) := by
  refine forgets_eat.bind ?_
  rintro found _ rfl
  refine .ite Iff.rfl (h.map ?_) (forgets_pure rfl)
  rintro _ a rfl
  rfl

end Items

end Reader

end GraphQLText
