import GraphQLText.Proofs.Lexing.Run
import GraphQLText.Proofs.Reading.Forward
import GraphQLText.Proofs.Spans.Moved

/-!
# Streams that overlap

Two streams overlap where the one has the tokens of the other, moved by some bytes. A reader tracks
another one if, as long as both stay within the overlap, they give the same node, moved like the
tokens, and come to the same place. In an overlap that is strict, what comes behind it is of no
concern to a reader that fails within it, so that the other one cannot succeed there. In one that is
not strict the second stream must end with the overlap.
-/

namespace GraphQLText

set_option autoImplicit false

theorem PlacedToken.span_moved (shift : Nat) (t : PlacedToken) :
    (t.moved shift).span = t.span.moved shift := by
  simp [moved, span, Span.moved, Nat.add_right_comm]

/-- What follows the tokens that two streams share, and how far these lie apart. -/
structure Overlap where
  shift : Nat
  /-- Whether a token is shared with which a reader may fail. -/
  strict : Prop
  rest₁ : List PlacedToken
  rest₂ : List PlacedToken
  ending₁ : Ending
  ending₂ : Ending
  ends_of_not_strict : ¬ strict → rest₂ = [] ∧ ∃ offset, ending₂ = .complete offset

namespace Overlap

structure Meets (o : Overlap) (c₁ c₂ : Cursor) : Prop where
  tokens : ∃ ts : List PlacedToken,
    c₁.tokens = ts.map (PlacedToken.moved o.shift) ++ o.rest₁ ∧ c₂.tokens = ts ++ o.rest₂
  ending₁ : c₁.ending = o.ending₁
  ending₂ : c₂.ending = o.ending₂
  lastEnd : max c₁.lastEnd o.shift = c₂.lastEnd + o.shift

def Within (o : Overlap) (c : Cursor) : Prop :=
  o.rest₁.length < c.tokens.length ∨ ¬ o.strict ∧ o.rest₁.length = c.tokens.length

variable {o : Overlap} {c d c₁ c₂ : Cursor}

theorem Within.of_le (h : o.Within d) (hle : d.tokens.length ≤ c.tokens.length) : o.Within c := by
  rcases h with hlt | ⟨hs, heq⟩
  · exact .inl (by omega)
  · rcases Nat.lt_or_eq_of_le hle with hlt | hlast
    · exact .inl (by omega)
    · exact .inr ⟨hs, by omega⟩

theorem Within.lt_of_lt (h : o.Within d) (hlt : d.tokens.length < c.tokens.length) :
    o.rest₁.length < c.tokens.length := by
  rcases h with h | ⟨_, h⟩ <;> omega

theorem Within.lt_of_strict (h : o.Within d) (hs : o.strict) :
    o.rest₁.length < d.tokens.length := by
  rcases h with h | ⟨hn, _⟩
  · exact h
  · exact absurd hs hn

/-- Before the end of the overlap, both places have the same token ahead. -/
theorem Meets.cases_of_lt (h : o.Meets c₁ c₂) (hlt : o.rest₁.length < c₁.tokens.length) :
    c₁.next? = c₂.next? ∧ c₁.nextSpan = c₂.nextSpan.moved o.shift ∧
      o.Meets c₁.advance c₂.advance ∧ c₁.isComplete = c₂.isComplete := by
  obtain ⟨⟨ts, h₁, h₂⟩, he₁, he₂, hlast⟩ := h
  obtain ⟨tokens₁, ending₁, lastEnd₁⟩ := c₁
  obtain ⟨tokens₂, ending₂, lastEnd₂⟩ := c₂
  simp only at h₁ h₂ he₁ he₂ hlast hlt
  subst h₁ h₂ he₁ he₂
  cases ts with
  | nil => simp at hlt
  | cons t ts =>
    refine ⟨rfl, PlacedToken.span_moved _ t, ⟨⟨ts, rfl, rfl⟩, rfl, rfl, ?_⟩, rfl⟩
    simp only [Cursor.advance, List.map_cons, List.cons_append, PlacedToken.span_moved, Span.moved]
    omega

theorem Meets.length_eq (h : o.Meets c₁ c₂) :
    c₁.tokens.length + o.rest₂.length = c₂.tokens.length + o.rest₁.length := by
  obtain ⟨ts, h₁, h₂⟩ := h.tokens
  rw [h₁, h₂, List.length_append, List.length_append, List.length_map]
  omega

/-- At the end of an overlap that is not strict, the second stream is at its end. -/
theorem Meets.cases_of_eq (h : o.Meets c₁ c₂) (hs : ¬ o.strict)
    (heq : o.rest₁.length = c₁.tokens.length) : c₂.next? = none ∧ c₂.isComplete = true := by
  obtain ⟨⟨ts, h₁, h₂⟩, he₁, he₂, hlast⟩ := h
  obtain ⟨hrest, offset, hending⟩ := o.ends_of_not_strict hs
  obtain ⟨tokens₂, ending₂, lastEnd₂⟩ := c₂
  have hnil : ts = [] := by
    rw [h₁, List.length_append, List.length_map] at heq
    exact List.length_eq_zero_iff.mp (by omega)
  simp only [hnil, hrest, List.append_nil] at h₂
  simp only at he₂
  subst h₂ he₂
  rw [hending]
  exact ⟨rfl, rfl⟩

/-- What is read within the overlap spans the same bytes in both streams, as far apart as these are. -/
theorem Meets.span_eq {d₁ d₂ : Cursor} (h : o.Meets c₁ c₂) (hd : o.Meets d₁ d₂)
    (hlt : o.rest₁.length < c₁.tokens.length) :
    (⟨c₁.nextSpan.start, max d₁.lastEnd c₁.nextSpan.start⟩ : Span) =
      Span.moved o.shift ⟨c₂.nextSpan.start, max d₂.lastEnd c₂.nextSpan.start⟩ := by
  have hstart : c₁.nextSpan.start = c₂.nextSpan.start + o.shift :=
    congrArg Span.start (h.cases_of_lt hlt).2.1
  have hstop : max d₁.lastEnd c₁.nextSpan.start =
      max d₂.lastEnd c₂.nextSpan.start + o.shift := by
    have hlast := hd.lastEnd
    omega
  rw [hstop, hstart]
  rfl

end Overlap

namespace Reader

variable {α β γ δ : Type}

/-- As long as it stays within the overlap, the first reader does as the second one does, which
succeeds. Upon an eager result another token is sure to be read, so that the end of the overlap need
not be considered then. -/
def TracksUpTo (o : Overlap) (eager : α → Prop) (r₁ : Reader α) (r₂ : Reader β)
    (R : α → β → Prop) : Prop :=
  ∀ c₁ c₂ b e, o.Meets c₁ c₂ → r₂ c₂ = .ok (b, e) →
    (∀ a d, r₁ c₁ = .ok (a, d) → o.Within d → (eager a → o.rest₁.length < d.tokens.length) →
      R a b ∧ o.Meets d e) ∧
    (o.strict → ∀ f, r₁ c₁ = .error f → ¬ o.Within f.place)

abbrev Tracks (o : Overlap) (r₁ : Reader α) (r₂ : Reader β) (R : α → β → Prop) : Prop :=
  TracksUpTo o (fun _ => False) r₁ r₂ R

/-- The first reader gives the nodes of the second one, moved like the tokens. -/
abbrev Copies [HasSpans α] (o : Overlap) (r₁ r₂ : Reader α) : Prop :=
  Tracks o r₁ r₂ fun a b => a = moved o.shift b

variable {o : Overlap} {r₁ : Reader α} {r₂ : Reader β} {R : α → β → Prop}

theorem Tracks.upTo (h : Tracks o r₁ r₂ R) (eager : α → Prop) : TracksUpTo o eager r₁ r₂ R := by
  intro c₁ c₂ b e hmeets h₂
  obtain ⟨hok, herror⟩ := h c₁ c₂ b e hmeets h₂
  exact ⟨fun a d h₁ hw _ => hok a d h₁ hw fun hf => hf.elim, herror⟩

theorem TracksUpTo.bind {eager : α → Prop} {eager' : γ → Prop} {f₁ : α → Reader γ}
    {f₂ : β → Reader δ} {S : γ → δ → Prop} (h : TracksUpTo o eager r₁ r₂ R)
    [∀ a, Forward (f₁ a)] (heager : ∀ a, eager a → Consuming (f₁ a))
    (hf : ∀ a b, R a b → TracksUpTo o eager' (f₁ a) (f₂ b) S) :
    TracksUpTo o eager' (r₁ >>= f₁) (r₂ >>= f₂) S := by
  intro c₁ c₂ b' e' hmeets h₂
  obtain ⟨b, e, hr₂, hf₂⟩ := bind_eq_ok.mp h₂
  obtain ⟨hok, herror⟩ := h c₁ c₂ b e hmeets hr₂
  constructor
  · intro a' d' h₁ hw heager'
    obtain ⟨a, d, hr₁, hf₁⟩ := bind_eq_ok.mp h₁
    have hd := hw.of_le (Forward.reaches d a' d' hf₁).length_le
    obtain ⟨hR, hde⟩ := hok a d hr₁ hd fun ha =>
      hw.lt_of_lt ((heager a ha).length_lt d a' d' hf₁)
    exact (hf a b hR d e b' e' hde hf₂).1 a' d' hf₁ hw heager'
  · intro hs f h₁ hw
    rcases bind_eq_error.mp h₁ with hr₁ | ⟨a, d, hr₁, hf₁⟩
    · exact herror hs f hr₁ hw
    · have hle := (Forward.reaches_place d f hf₁).length_le
      have hlt := hw.lt_of_strict hs
      obtain ⟨hR, hde⟩ := hok a d hr₁ (hw.of_le hle) fun _ => by omega
      exact (hf a b hR d e b' e' hde hf₂).2 hs f hf₁ hw

theorem Tracks.bind {eager' : γ → Prop} {f₁ : α → Reader γ} {f₂ : β → Reader δ}
    {S : γ → δ → Prop} (h : Tracks o r₁ r₂ R) [∀ a, Forward (f₁ a)]
    (hf : ∀ a b, R a b → TracksUpTo o eager' (f₁ a) (f₂ b) S) :
    TracksUpTo o eager' (r₁ >>= f₁) (r₂ >>= f₂) S :=
  TracksUpTo.bind h (fun _ ha => ha.elim) hf

theorem tracks_pure {a : α} {b : β} (h : R a b) :
    Tracks o (pure a : Reader α) (pure b : Reader β) R := by
  rintro c₁ c₂ _ _ hmeets ⟨⟩
  refine ⟨?_, fun _ f h₁ => (by cases h₁)⟩
  rintro _ _ ⟨⟩ _ _
  exact ⟨h, hmeets⟩

theorem Tracks.map {f : α → γ} {g : β → δ} {S : γ → δ → Prop} (h : Tracks o r₁ r₂ R)
    (hRS : ∀ a b, R a b → S (f a) (g b)) : Tracks o (f <$> r₁) (g <$> r₂) S := by
  rw [← bind_pure_comp, ← bind_pure_comp]
  exact h.bind fun a b hR => tracks_pure (hRS a b hR)

theorem TracksUpTo.ite {eager : α → Prop} {s₁ : Reader α} {s₂ : Reader β} {p q : Prop}
    [Decidable p] [Decidable q] (hpq : p ↔ q) (h : p → TracksUpTo o eager r₁ r₂ R)
    (hs : ¬ p → TracksUpTo o eager s₁ s₂ R) :
    TracksUpTo o eager (if p then r₁ else s₁) (if q then r₂ else s₂) R := by
  by_cases hp : p
  · rw [if_pos hp, if_pos (hpq.mp hp)]
    exact h hp
  · rw [if_neg hp, if_neg (mt hpq.mpr hp)]
    exact hs hp

/-- A reader that succeeds nowhere is tracked by all. -/
theorem tracks_fail {expected : Construct} : Tracks o r₁ (fail expected : Reader β) R := by
  rintro c₁ c₂ b e _ ⟨⟩

/-- A reader that succeeds nowhere tracks all, unless it matters where it fails. -/
theorem fail_tracks (hs : ¬ o.strict) {expected : Construct} :
    Tracks o (fail expected : Reader α) r₂ R := by
  intro c₁ c₂ b e _ _
  refine ⟨?_, fun h => absurd h hs⟩
  rintro a d ⟨⟩

theorem tracks_token {expected expected' : Construct} {accept : Token → Option α} :
    Tracks o (token expected accept) (token expected' accept) Eq := by
  intro c₁ c₂ b e hmeets h₂
  -- The first reader looks at the token that the second one took, unless that is behind the overlap.
  have hsame : o.rest₁.length < c₁.tokens.length →
      token expected accept c₁ = .ok (b, c₁.advance) ∧ o.Meets c₁.advance e := by
    intro hlt
    obtain ⟨hn, _, hadvance, _⟩ := hmeets.cases_of_lt hlt
    unfold token at h₂ ⊢
    rw [hn]
    split at h₂ <;> cases h₂
    exact ⟨rfl, hadvance⟩
  constructor
  · intro a d h₁ hw _
    have hlt := hw.lt_of_lt (Consuming.length_lt c₁ a d h₁)
    obtain ⟨hb, he⟩ := hsame hlt
    rw [hb] at h₁
    obtain ⟨⟩ := h₁
    exact ⟨rfl, he⟩
  · intro hs f h₁ hw
    have hle := (Forward.reaches_place c₁ f h₁).length_le
    have hlt := hw.lt_of_strict hs
    rw [(hsame (by omega)).1] at h₁
    cases h₁

theorem tracks_expect {t : Token} {expected expected' : Construct} :
    Tracks o (expect t expected) (expect t expected') Eq :=
  tracks_token

theorem tracks_nameToken {expected expected' : Construct} :
    Tracks o (nameToken expected) (nameToken expected') Eq :=
  tracks_token

theorem tracks_eat {t : Token} : Tracks o (eat t) (eat t) Eq := by
  intro c₁ c₂ b e hmeets h₂
  refine ⟨fun a d h₁ hw _ => ?_, fun _ f h₁ => ?_⟩
  · rcases hw.of_le (Forward.reaches c₁ a d h₁).length_le with hlt | ⟨hs, heq⟩
    · obtain ⟨hn, _, hadvance, _⟩ := hmeets.cases_of_lt hlt
      unfold eat at h₁ h₂
      rw [hn] at h₁
      split at h₂ <;> cases h₂
      · next ht =>
        rw [if_pos ht] at h₁
        cases h₁
        exact ⟨rfl, hadvance⟩
      · next ht =>
        rw [if_neg ht] at h₁
        cases h₁
        exact ⟨rfl, hmeets⟩
    · -- At the end of the overlap nothing can have been read.
      have hnone := (hmeets.cases_of_eq hs heq).1
      unfold eat at h₁ h₂
      rw [hnone, if_neg (by simp)] at h₂
      cases h₂
      by_cases hn : c₁.next? = some t
      · rw [if_pos hn] at h₁
        cases h₁
        have hlen := Cursor.length_advance hn
        rcases hw with hlt | ⟨_, hlast⟩ <;> omega
      · rw [if_neg hn] at h₁
        cases h₁
        exact ⟨rfl, hmeets⟩
  · unfold eat at h₁
    split at h₁ <;> cases h₁

theorem tracks_at? {t : Token} : TracksUpTo o (· = true) (at? t) (at? t) Eq := by
  rintro c₁ c₂ _ _ hmeets ⟨⟩
  refine ⟨?_, fun _ f h₁ => (by cases h₁)⟩
  rintro a d h₁ hw heager
  cases h₁
  rcases hw with hlt | ⟨hs, heq⟩
  · rw [(hmeets.cases_of_lt hlt).1]
    exact ⟨rfl, hmeets⟩
  · rw [(hmeets.cases_of_eq hs heq).1]
    refine ⟨?_, hmeets⟩
    cases hn : c₁.next? == some t with
    | false => rfl
    | true =>
      have hlt := heager hn
      omega

/-- The second reader sees the token that the first one sees, or the first one sees a token behind
the overlap, upon which it does not go on. -/
theorem tracks_peek (eager : Option Token → Prop) :
    TracksUpTo o eager peek peek fun a b => a = b ∨ ¬ eager a ∧ b = none := by
  rintro c₁ c₂ _ _ hmeets ⟨⟩
  refine ⟨?_, fun _ f h₁ => (by cases h₁)⟩
  rintro a d h₁ hw heager
  cases h₁
  rcases hw with hlt | ⟨hs, heq⟩
  · exact ⟨.inl (hmeets.cases_of_lt hlt).1, hmeets⟩
  · refine ⟨?_, hmeets⟩
    by_cases hn : eager c₁.next?
    · have hlt := heager hn
      omega
    · exact .inr ⟨hn, (hmeets.cases_of_eq hs heq).1⟩

theorem tracks_skip : Tracks o skip skip fun _ _ => True := by
  rintro c₁ c₂ _ _ hmeets ⟨⟩
  refine ⟨?_, fun _ f h₁ => (by cases h₁)⟩
  rintro a d h₁ hw -
  cases h₁
  refine ⟨trivial, ?_⟩
  rcases hw.of_le c₁.reaches_advance.length_le with hlt | ⟨hs, heq⟩
  · exact (hmeets.cases_of_lt hlt).2.2.1
  · have hstay : ∀ c : Cursor, c.next? = none → c.advance = c := by
      rintro ⟨_ | ⟨t, tokens⟩, ending, lastEnd⟩ hn
      · rfl
      · simp [Cursor.next?] at hn
    rw [hstay c₂ (hmeets.cases_of_eq hs heq).1]
    cases hn : c₁.next? with
    | none => rwa [hstay c₁ hn]
    | some t =>
      have hlen := Cursor.length_advance hn
      rcases hw with hlt | ⟨_, hlast⟩ <;> omega

/-- A reader that is sure to read a token sees the same one in both streams. -/
theorem tracks_peek_bind {f₁ : Option Token → Reader α} {f₂ : Option Token → Reader β}
    [Forward (peek >>= f₁)] [Consuming (peek >>= f₁)] (hf : ∀ t, Tracks o (f₁ t) (f₂ t) R) :
    Tracks o (peek >>= f₁) (peek >>= f₂) R := by
  intro c₁ c₂ b e hmeets h₂
  have hsame : o.rest₁.length < c₁.tokens.length → f₂ c₁.next? c₂ = .ok (b, e) := by
    intro hlt
    rw [(hmeets.cases_of_lt hlt).1]
    exact h₂
  constructor
  · intro a d h₁ hw heager
    have hlt := hw.lt_of_lt (Consuming.length_lt c₁ a d h₁)
    exact (hf _ c₁ c₂ b e hmeets (hsame hlt)).1 a d h₁ hw heager
  · intro hs f h₁ hw
    have hle := (Forward.reaches_place c₁ f h₁).length_le
    have hlt := hw.lt_of_strict hs
    exact (hf _ c₁ c₂ b e hmeets (hsame (by omega))).2 hs f h₁ hw

/-- Upon some tokens a reader goes on that is sure to read them, and upon all others one that would
go on in the same way at the end. -/
theorem tracks_peek_upTo (eager : Option Token → Prop) {f₁ : Option Token → Reader α}
    {f₂ : Option Token → Reader β} (hforward : ∀ t, Forward (f₁ t))
    (hconsuming : ∀ t, eager t → Consuming (f₁ t)) (hsame : ∀ t, Tracks o (f₁ t) (f₂ t) R)
    (hend : ∀ t, ¬ eager t → Tracks o (f₁ t) (f₂ none) R) :
    Tracks o (peek >>= f₁) (peek >>= f₂) R := by
  refine TracksUpTo.bind (tracks_peek eager) hconsuming ?_
  rintro t _ (rfl | ⟨hno, rfl⟩)
  · exact hsame t
  · exact hend t hno

/-- Upon a token that is ahead, a reader goes on that is sure to read it. -/
theorem Tracks.ifAt {t : Token} {s₁ : Reader α} {s₂ : Reader β} [Forward r₁] [Consuming r₁]
    [Forward s₁] (h : Tracks o r₁ r₂ R) (hs : Tracks o s₁ s₂ R) :
    Tracks o (at? t >>= fun found => if found = true then r₁ else s₁)
      (at? t >>= fun found => if found = true then r₂ else s₂) R := by
  refine TracksUpTo.bind tracks_at? ?_ ?_
  · rintro _ rfl
    rwa [if_pos rfl]
  · rintro found _ rfl
    exact .ite Iff.rfl (fun _ => h) fun _ => hs

theorem Tracks.located {r₁ : Reader (Span → α)} {r₂ : Reader (Span → β)}
    {S : α → β → Prop} [Forward r₁] [Consuming r₁]
    (h : Tracks o r₁ r₂ fun f g => ∀ span : Span, S (f (span.moved o.shift)) (g span)) :
    Tracks o (located r₁) (located r₂) S := by
  intro c₁ c₂ b e hmeets h₂
  obtain ⟨g, hr₂, rfl⟩ := located_eq_ok.mp h₂
  obtain ⟨hok, herror⟩ := h c₁ c₂ g e hmeets hr₂
  refine ⟨fun a d h₁ hw _ => ?_, fun hs f h₁ => herror hs f (located_eq_error.mp h₁)⟩
  obtain ⟨f, hr₁, rfl⟩ := located_eq_ok.mp h₁
  obtain ⟨hS, hde⟩ := hok f d hr₁ hw fun hf => hf.elim
  have hlt := hw.lt_of_lt (Consuming.length_lt c₁ f d hr₁)
  refine ⟨?_, hde⟩
  rw [hmeets.span_eq hde hlt]
  exact hS ⟨c₂.nextSpan.start, max e.lastEnd c₂.nextSpan.start⟩

theorem Tracks.relabel {expected expected' : Construct} (h : Tracks o r₁ r₂ R) :
    Tracks o (relabel expected r₁) (relabel expected' r₂) R := by
  intro c₁ c₂ b e hmeets h₂
  obtain ⟨hok, herror⟩ := h c₁ c₂ b e hmeets (relabel_eq_ok.mp h₂)
  refine ⟨fun a d h₁ => hok a d (relabel_eq_ok.mp h₁), fun hs f h₁ => ?_⟩
  obtain ⟨f', hf', hplace⟩ := relabel_eq_error h₁
  exact hplace ▸ herror hs f' hf'

/-- The bounds on the depth need not be the same in both streams, as long as they do not matter. -/
theorem Tracks.nested {read₁ : Nat → Reader α} {read₂ : Nat → Reader β}
    (h : ∀ depth, Tracks o (read₁ depth) (read₂ depth) R)
    (h₁ : ∀ c depth, c.tokens.length < depth → read₁ depth c = nested read₁ c)
    (h₂ : ∀ c depth, c.tokens.length < depth → read₂ depth c = nested read₂ c) :
    Tracks o (nested read₁) (nested read₂) R := by
  intro c₁ c₂ b e hmeets hr₂
  let depth := max c₁.tokens.length c₂.tokens.length + 1
  rw [← h₂ c₂ depth (by omega)] at hr₂
  rw [← h₁ c₁ depth (by omega)]
  exact h depth c₁ c₂ b e hmeets hr₂

section Items

variable {item₁ item₂ : Reader α} {more : Reader Bool}

section Round

variable {c₁ c₂ d₁ last₂ : Cursor} {bs : List α}

/-- Where the first reader finds another item, so does the second one. -/
theorem TracksUpTo.exists_item (hmore : TracksUpTo o (· = true) more more Eq)
    (hmeets : o.Meets c₁ c₂) (h₂ : whileMore more item₂ c₂ = .ok (bs, last₂))
    (hm₁ : more c₁ = .ok (true, d₁)) (hlt : o.rest₁.length < d₁.tokens.length) :
    ∃ d₂ b e₂, o.Meets d₁ d₂ ∧ item₂ d₂ = .ok (b, e₂) ∧
      if e₂.tokens.length < c₂.tokens.length then
        ∃ bs', whileMore more item₂ e₂ = .ok (bs', last₂) ∧ bs = b :: bs'
      else bs = [b] ∧ last₂ = e₂ := by
  rcases whileMore_eq_ok.mp h₂ with ⟨hm₂, _⟩ | ⟨d₂, b, e₂, hm₂, hi₂, hrest₂⟩
  · have heq := ((hmore c₁ c₂ _ _ hmeets hm₂).1 true d₁ hm₁ (.inl hlt) fun _ => hlt).1
    cases heq
  · obtain ⟨-, hd⟩ := (hmore c₁ c₂ _ _ hmeets hm₂).1 true d₁ hm₁ (.inl hlt) fun _ => hlt
    exact ⟨d₂, b, e₂, hd, hi₂, hrest₂⟩

/-- Where the first reader has read another item, so has the second one, and it goes on behind it. -/
theorem Copies.exists_rest [HasSpans α] [Consuming item₁] [Forward more] (h : Copies o item₁ item₂)
    (hmore : TracksUpTo o (· = true) more more Eq) (hmeets : o.Meets c₁ c₂)
    (h₂ : whileMore more item₂ c₂ = .ok (bs, last₂)) {a : α} {e₁ : Cursor}
    (hm₁ : more c₁ = .ok (true, d₁)) (hi₁ : item₁ d₁ = .ok (a, e₁)) (hw : o.Within e₁) :
    ∃ e₂ b bs', o.Meets e₁ e₂ ∧ a = moved o.shift b ∧ bs = b :: bs' ∧
      whileMore more item₂ e₂ = .ok (bs', last₂) := by
  have hlt := Consuming.length_lt d₁ a e₁ hi₁
  have hle := (Forward.reaches c₁ true d₁ hm₁).length_le
  obtain ⟨d₂, b, e₂, hd, hi₂, hrest₂⟩ := hmore.exists_item hmeets h₂ hm₁ (hw.lt_of_lt hlt)
  obtain ⟨ha, he⟩ := (h d₁ d₂ b e₂ hd hi₂).1 a e₁ hi₁ hw fun hf => hf.elim
  -- the item took as many tokens in the second stream, so the second reader goes on, too
  have hlen := hmeets.length_eq
  have hlen' := he.length_eq
  rw [if_pos (by omega)] at hrest₂
  obtain ⟨bs', hw₂, rfl⟩ := hrest₂
  exact ⟨e₂, b, bs', he, ha, rfl, hw₂⟩

end Round

variable [HasSpans α]

/-- Items are tracked one by one, up to where there are no more. -/
theorem Copies.whileMore [Forward item₁] [Consuming item₁] [Forward more]
    (h : Copies o item₁ item₂) (hmore : TracksUpTo o (· = true) more more Eq) :
    Copies o (whileMore more item₁) (whileMore more item₂) := by
  intro c₁
  induction hlength : c₁.tokens.length using Nat.strongRecOn generalizing c₁ with
  | ind n ih =>
    subst hlength
    intro c₂ bs last₂ hmeets h₂
    constructor
    · intro as last₁ h₁ hw _
      rcases whileMore_eq_ok.mp h₁ with ⟨hm₁, rfl⟩ | ⟨d₁, a, e₁, hm₁, hi₁, hrest₁⟩
      · rcases whileMore_eq_ok.mp h₂ with ⟨hm₂, rfl⟩ | ⟨d₂, b, e₂, hm₂, _⟩
        · obtain ⟨-, hlast⟩ := (hmore c₁ c₂ _ _ hmeets hm₂).1 false last₁ hm₁ hw (by simp)
          exact ⟨rfl, hlast⟩
        · have heq := ((hmore c₁ c₂ _ _ hmeets hm₂).1 false last₁ hm₁ hw (by simp)).1
          cases heq
      · have hlt := Consuming.length_lt d₁ a e₁ hi₁
        have hle := (Forward.reaches c₁ true d₁ hm₁).length_le
        rw [if_pos (by omega)] at hrest₁
        obtain ⟨as', hw₁, rfl⟩ := hrest₁
        have hwe := hw.of_le (Forward.reaches e₁ as' last₁ hw₁).length_le
        obtain ⟨e₂, b, bs', he, rfl, rfl, hw₂⟩ := h.exists_rest hmore hmeets h₂ hm₁ hi₁ hwe
        have hnext := ih _ (by omega) e₁ rfl e₂ bs' last₂ he hw₂
        obtain ⟨rfl, hlast⟩ := hnext.1 as' last₁ hw₁ hw False.elim
        exact ⟨rfl, hlast⟩
    · intro hs f h₁ hw
      have hin := hw.lt_of_strict hs
      rcases whileMore_eq_error.mp h₁ with hm₁ | ⟨d₁, hm₁, hi₁ | ⟨a, e₁, hi₁, hlt, hw₁⟩⟩
      · rcases whileMore_eq_ok.mp h₂ with ⟨hm₂, _⟩ | ⟨d₂, b, e₂, hm₂, _⟩
        · exact (hmore c₁ c₂ _ _ hmeets hm₂).2 hs f hm₁ hw
        · exact (hmore c₁ c₂ _ _ hmeets hm₂).2 hs f hm₁ hw
      · have hle := (Forward.reaches_place d₁ f hi₁).length_le
        obtain ⟨d₂, b, e₂, hd, hi₂, _⟩ := hmore.exists_item hmeets h₂ hm₁ (by omega)
        exact (h d₁ d₂ b e₂ hd hi₂).2 hs f hi₁ hw
      · have hwe := hw.of_le (Forward.reaches_place e₁ f hw₁).length_le
        obtain ⟨e₂, b, bs', he, _, _, hw₂⟩ := h.exists_rest hmore hmeets h₂ hm₁ hi₁ hwe
        exact (ih _ hlt e₁ rfl e₂ bs' last₂ he hw₂).2 hs f hw₁ hw

variable [Forward item₁] [Consuming item₁]

theorem Copies.untilClosed (h : Copies o item₁ item₂) (close : Punctuator) :
    Copies o (untilClosed close item₁) (untilClosed close item₂) := by
  refine h.whileMore (Tracks.upTo (Tracks.map tracks_eat ?_) _)
  rintro a _ rfl
  rfl

theorem Copies.enclosed (h : Copies o item₁ item₂) (opening close : Punctuator) :
    Copies o (enclosed opening close item₁) (enclosed opening close item₂) := by
  refine tracks_eat.bind ?_
  rintro opened _ rfl
  refine TracksUpTo.ite Iff.rfl (fun _ => h.bind ?_) fun _ => tracks_pure rfl
  rintro _ first rfl
  refine (h.untilClosed close).bind ?_
  rintro _ rest rfl
  exact tracks_pure rfl

theorem Copies.separated (h : Copies o item₁ item₂) (separator : Punctuator) :
    Copies o (separated separator item₁) (separated separator item₂) := by
  refine tracks_eat.bind fun _ _ _ => h.bind ?_
  rintro _ first rfl
  refine (h.whileMore (tracks_eat.upTo _)).bind ?_
  rintro _ rest rfl
  exact tracks_pure rfl

omit [Consuming item₁] in
theorem Copies.behind (h : Copies o item₁ item₂) (t : Token) :
    Copies o (behind? t item₁) (behind? t item₂) := by
  refine tracks_eat.bind ?_
  rintro found _ rfl
  refine TracksUpTo.ite Iff.rfl (fun _ => h.map ?_) fun _ => tracks_pure rfl
  rintro _ a rfl
  rfl

end Items

end Reader

end GraphQLText
