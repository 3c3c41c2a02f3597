import GraphQLText.Proofs.Reading.Combined
import GraphQLText.Proofs.Reading.Forward

/-!
# Viable prefixes

Tokens are a viable prefix of a grammar if they go on to a phrase of it. What they go on with is made
of punctuators and names alone, which can be written behind any text. A reader recovers if all that
it has taken before it fails is viable: it takes no token that could not stand where it is.
-/

namespace GraphQLText

set_option autoImplicit false

variable {α β γ : Type}

/-- A token that can be written behind any text. -/
def Token.IsFiller : Token → Prop
  | .punctuator _ => True
  | .name s => isName s = true
  | _ => False

instance : DecidablePred Token.IsFiller
  | .punctuator _ => inferInstanceAs (Decidable True)
  | .name s => inferInstanceAs (Decidable (isName s = true))
  | .int _ | .float _ | .string _ | .blockString _ => inferInstanceAs (Decidable False)

/-- The tokens go on to a phrase of the grammar. -/
def Viable (G : Phrase → α → Prop) (ts : List Token) : Prop :=
  ∃ ws a more, G ws a ∧ ws.tokens = ts ++ more ∧ ∀ t ∈ more, t.IsFiller

namespace Viable

variable {G : Phrase → α → Prop} {H : Phrase → β → Prop} {ts : List Token}

theorem of_phrase {ws : Phrase} {a : α} (h : G ws a) : Viable G ws.tokens :=
  ⟨ws, a, [], h, (List.append_nil _).symm, by simp⟩

theorem of_fillers {ws : Phrase} {a : α} (h : G ws a) (hws : ∀ t ∈ ws.tokens, t.IsFiller) :
    Viable G [] :=
  ⟨ws, a, ws.tokens, h, rfl, hws⟩

/-- A phrase of a part goes on to a phrase of the whole. -/
theorem within (h : Viable G ts) (before after : List Token) (hafter : ∀ t ∈ after, t.IsFiller)
    (hGH : ∀ ws a, G ws a → ∃ vs b, H vs b ∧ vs.tokens = before ++ (ws.tokens ++ after)) :
    Viable H (before ++ ts) := by
  obtain ⟨ws, a, more, hg, hws, hmore⟩ := h
  obtain ⟨vs, b, hh, hvs⟩ := hGH ws a hg
  refine ⟨vs, b, more ++ after, hh, ?_, ?_⟩
  · rw [hvs, hws]
    simp only [List.append_assoc]
  · intro t ht
    rcases List.mem_append.mp ht with hleft | hright
    · exact hmore t hleft
    · exact hafter t hright

theorem mono (h : Viable G ts)
    (hGH : ∀ ws a, G ws a → ∃ vs b, H vs b ∧ vs.tokens = ws.tokens) : Viable H ts := by
  apply h.within [] []
  · simp
  · intro ws a hg
    obtain ⟨vs, b, hh, hvs⟩ := hGH ws a hg
    exact ⟨vs, b, hh, by simp [hvs]⟩

end Viable

namespace Cursor

def Partway (c : Cursor) (G : Phrase → α → Prop) (e : Cursor) : Prop :=
  ∃ us, c.Takes us e ∧ Viable G us.tokens

variable {c d e : Cursor} {G : Phrase → α → Prop} {H : Phrase → β → Prop}

theorem Partway.start (h : Viable G []) (c : Cursor) : c.Partway G c :=
  ⟨[], rfl, h⟩

/-- A part that has been begun behind something else. -/
theorem Partway.within (h : d.Partway G e) {us : Phrase} (ht : c.Takes us d) (after : List Token)
    (hafter : ∀ t ∈ after, t.IsFiller)
    (hGH : ∀ ws a, G ws a → ∃ vs b, H vs b ∧ vs.tokens = us.tokens ++ (ws.tokens ++ after)) :
    c.Partway H e := by
  obtain ⟨ws, htw, hviable⟩ := h
  refine ⟨us ++ ws, ht.append htw, ?_⟩
  rw [Phrase.tokens_append]
  exact hviable.within us.tokens after hafter hGH

theorem Partway.mono (h : c.Partway G e)
    (hGH : ∀ ws a, G ws a → ∃ vs b, H vs b ∧ vs.tokens = ws.tokens) : c.Partway H e := by
  obtain ⟨ws, ht, hviable⟩ := h
  exact ⟨ws, ht, hviable.mono hGH⟩

end Cursor

/-- A phrase of the one grammar and then one of the other, which may depend on the first node. -/
inductive Then (G : Phrase → α → Prop) (H : α → Phrase → β → Prop) : Phrase → β → Prop
  | intro {u v : Phrase} {a : α} {b : β} : G u a → H a v b → Then G H (u ++ v) b

inductive Just (t : Token) : Phrase → Unit → Prop
  | intro : Just t [.need t] ()

inductive Named : Phrase → String → Prop
  | intro (s : String) : Named [.name s] s

inductive Optionally (t : Token) : Phrase → Bool → Prop
  | absent : Optionally t [] false
  | present : Optionally t [.need t] true

namespace Reader

def Fails (r : Reader α) (c : Cursor) (Q : Cursor → Prop) : Prop :=
  ∀ f, r c = .error f → Q f.place

section Fails

variable {r s : Reader α} {c : Cursor} {Q : Cursor → Prop}

theorem fails_bind {f : α → Reader β} :
    Fails (r >>= f) c Q ↔ Fails r c Q ∧ Always r c fun a d => Fails (f a) d Q := by
  constructor
  · intro h
    constructor
    · intro failure hr
      exact h failure (bind_eq_error.mpr (.inl hr))
    · intro a d hr failure hf
      exact h failure (bind_eq_error.mpr (.inr ⟨a, d, hr, hf⟩))
  · intro h failure hb
    rcases bind_eq_error.mp hb with hr | ⟨a, d, hr, hf⟩
    · exact h.1 failure hr
    · exact h.2 a d hr failure hf

theorem fails_pure (a : α) : Fails (pure a) c Q := by
  intro f h
  cases h

theorem fails_map {f : α → β} : Fails (f <$> r) c Q ↔ Fails r c Q := by
  rw [← bind_pure_comp, fails_bind]
  exact and_iff_left fun a d _ => fails_pure (f a)

theorem fails_ite {p : Prop} [Decidable p] :
    Fails (if p then r else s) c Q ↔ (p → Fails r c Q) ∧ (¬ p → Fails s c Q) := by
  split <;> simp_all

theorem fails_fail {expected : Construct} : Fails (fail expected : Reader α) c Q ↔ Q c := by
  constructor
  · intro h
    exact h _ rfl
  · rintro h f ⟨⟩
    exact h

theorem fails_located {r : Reader (Span → α)} : Fails (located r) c Q ↔ Fails r c Q := by
  simp only [Fails, located_eq_error]

theorem fails_relabel {expected : Construct} (h : Fails r c Q) : Fails (relabel expected r) c Q := by
  intro f hf
  obtain ⟨f', hf', hplace⟩ := relabel_eq_error hf
  exact hplace ▸ h f' hf'

theorem fails_nested {r : Nat → Reader α} :
    Fails (nested r) c Q ↔ Fails (r (c.tokens.length + 1)) c Q :=
  Iff.rfl

theorem fails_token {expected : Construct} {accept : Token → Option α} (h : Q c) :
    Fails (token expected accept) c Q := by
  intro f hf
  unfold token at hf
  split at hf <;> cases hf
  exact h

theorem fails_expect {t : Token} {expected : Construct} (h : Q c) : Fails (expect t expected) c Q :=
  fails_token h

theorem fails_nameToken {expected : Construct} (h : Q c) : Fails (nameToken expected) c Q :=
  fails_token h

theorem fails_peek : Fails peek c Q := by
  rintro f ⟨⟩

theorem fails_at? {t : Token} : Fails (at? t) c Q := by
  rintro f ⟨⟩

theorem fails_skip : Fails skip c Q := by
  rintro f ⟨⟩

theorem fails_eat {t : Token} : Fails (eat t) c Q := by
  intro f h
  unfold eat at h
  split at h <;> cases h

theorem fails_located_token {expected : Construct} {accept : Token → Option α}
    {f : α → Reader (Span → β)} (hf : ∀ a d, Fails (f a) d Q) (h : Q c) :
    Fails (located (token expected accept >>= f)) c Q :=
  fails_located.mpr (fails_bind.mpr ⟨fails_token h, fun a d _ => hf a d⟩)

/-- A reader that looks at the token ahead fails as it goes on upon that token. -/
theorem fails_peek_bind {f : Option Token → Reader α} (h : Fails (f c.next?) c Q) :
    Fails (peek >>= f) c Q :=
  fails_bind.mpr ⟨fails_peek, always_peek.mpr h⟩

end Fails

theorem sound_expect {t : Token} {expected : Construct} : Sound (expect t expected) (Just t) :=
  fun _ => always_expect.mpr fun hn => ⟨_, .intro, hn, rfl⟩

theorem sound_nameToken {expected : Construct} : Sound (nameToken expected) Named :=
  fun _ => always_nameToken.mpr fun s hn => ⟨_, .intro s, hn, rfl⟩

theorem sound_eat {t : Token} : Sound (eat t) (Optionally t) :=
  fun _ => always_eat.mpr ⟨fun hn => ⟨_, .present, hn, rfl⟩, fun _ => ⟨[], .absent, rfl⟩⟩

/-- Where a token must not be ahead, the reader behind that test can be told from what follows it. -/
theorem unlessAt_bind (t : Token) (expected : Construct) (r : Reader α) (f : α → Reader β) :
    (at? t >>= fun found => if found = true then fail expected else r >>= f) =
      (at? t >>= fun found => if found = true then fail expected else r) >>= f := by
  funext c
  simp only [bind_apply, at?]
  by_cases hn : (c.next? == some t) = true
  · simp only [hn, if_true]
    rfl
  · simp only [hn, Bool.false_eq_true, if_false, bind_apply]

/-- What the reader has taken when it fails is a viable prefix, and the grammar has a phrase that can
be written anywhere. -/
structure Recovers (r : Reader α) (G : Phrase → β → Prop) : Prop where
  viable : Viable G []
  fails : ∀ c, Fails r c (c.Partway G)

namespace Recovers

variable {r : Reader α} {G : Phrase → α → Prop}

section Readers

variable {G : Phrase → γ → Prop}

/-- A reader that fails at once if it fails. -/
theorem of_start (hviable : Viable G []) (h : ∀ c, Fails r c (· = c)) : Recovers r G where
  viable := hviable
  fails := by
    intro c f hf
    rw [h c f hf]
    exact .start hviable c

theorem mono {H : Phrase → β → Prop} (h : Recovers r G)
    (hGH : ∀ ws a, G ws a → ∃ vs b, H vs b ∧ vs.tokens = ws.tokens) : Recovers r H where
  viable := h.viable.mono hGH
  fails := by
    intro c f hf
    exact (h.fails c f hf).mono hGH

theorem weaken {P : γ → Prop} (h : Recovers r fun ws a => G ws a ∧ P a) : Recovers r G := by
  apply h.mono
  intro ws a hg
  exact ⟨ws, a, hg.1, rfl⟩

theorem located {r : Reader (Span → α)} (h : Recovers r G) : Recovers (located r) G :=
  ⟨h.viable, fun c => fails_located.mpr (h.fails c)⟩

theorem map {f : α → β} (h : Recovers r G) : Recovers (f <$> r) G :=
  ⟨h.viable, fun c => fails_map.mpr (h.fails c)⟩

theorem unlessAt {t : Token} {expected : Construct} (h : Recovers r G) :
    Recovers (at? t >>= fun found => if found = true then fail expected else r) G where
  viable := h.viable
  fails := by
    intro c
    rw [fails_bind, always_at?, fails_ite, fails_fail]
    exact ⟨fails_at?, fun _ => .start h.viable c, fun _ => h.fails c⟩

theorem bind_pure {f : α → β} (h : Recovers r G) : Recovers (r >>= fun a => pure (f a)) G := by
  rw [bind_pure_comp]
  exact h.map

end Readers

theorem expect {t : Token} {expected : Construct} (ht : t.IsFiller) :
    Recovers (expect t expected) (Just t) := by
  apply of_start
  · exact .of_fillers .intro (by simpa)
  · exact fun c => fails_expect rfl

theorem optionally {t : Token} : Recovers (eat t) (Optionally t) := by
  apply of_start
  · exact .of_fillers .absent (by simp)
  · exact fun c => fails_eat

theorem nameToken {expected : Construct} : Recovers (nameToken expected) Named := by
  apply of_start
  · exact .of_fillers (.intro "a") (by decide)
  · exact fun c => fails_nameToken rfl

/-- What the first reader takes before it fails goes on to a phrase of both, for something viable can
follow. -/
theorem bind {f : α → Reader β} {H : α → Phrase → γ → Prop} (h : Recovers r G) (hs : Sound r G)
    (hf : ∀ a, Recovers (f a) (H a)) : Recovers (r >>= f) (Then G H) := by
  have hgo : ∀ ts, Viable G ts → Viable (Then G H) ts := by
    intro ts hts
    obtain ⟨ws, a, more, hg, hws, hmore⟩ := hts
    obtain ⟨vs, b, more', hh, hvs, hmore'⟩ := (hf a).viable
    refine ⟨ws ++ vs, b, more ++ more', .intro hg hh, ?_, ?_⟩
    · rw [Phrase.tokens_append, hws, hvs]
      simp
    · intro t ht
      rcases List.mem_append.mp ht with hleft | hright
      · exact hmore t hleft
      · exact hmore' t hright
  refine ⟨hgo [] h.viable, fun c => fails_bind.mpr ⟨?_, ?_⟩⟩
  · intro failure hr
    obtain ⟨us, ht, hviable⟩ := h.fails c failure hr
    exact ⟨us, ht, hgo _ hviable⟩
  · intro a d hr failure hfail
    obtain ⟨us, hg, ht⟩ := hs c a d hr
    apply ((hf a).fails d failure hfail).within ht [] (by simp)
    intro ws b hh
    exact ⟨us ++ ws, b, .intro hg hh, by simp⟩

/-- The same, where the first reader only fails with more than the least that it reads, so that
nothing has to follow then. -/
theorem bindTo {f : α → Reader β} {G' : Phrase → α → Prop} {K : Phrase → γ → Prop}
    (h : Recovers r G') (hs : Sound r G) (hK : ∀ us a, G' us a → ∃ b, K us b)
    (hf : ∀ us a, G us a → Recovers (f a) fun vs b => K (us ++ vs) b) : Recovers (r >>= f) K := by
  have hgo : ∀ us a, G' us a → ∃ vs b, K vs b ∧ vs.tokens = us.tokens := by
    intro us a hg
    obtain ⟨b, hk⟩ := hK us a hg
    exact ⟨us, b, hk, rfl⟩
  refine ⟨h.viable.mono hgo, fun c => fails_bind.mpr ⟨?_, ?_⟩⟩
  · intro failure hr
    exact (h.fails c failure hr).mono hgo
  · intro a d hr failure hfail
    obtain ⟨us, hg, ht⟩ := hs c a d hr
    apply ((hf us a hg).fails d failure hfail).within ht [] (by simp)
    intro ws b hk
    exact ⟨us ++ ws, b, hk, by simp⟩

end Recovers

section Items

variable {item : Reader α} {G : Phrase → α → Prop}

/-- Items that are read while there is more. A bad one stands behind good ones. -/
theorem Recovers.whileMore {more : Reader Bool} (h : Recovers item G) (hs : Sound item G)
    (hmore : ∀ c d, more c = .ok (true, d) → d = c) (hfails : ∀ c, Fails more c fun _ => False) :
    Recovers (whileMore more item) fun ws as => Many G ws as ∧ as ≠ [] := by
  have hlast : ∀ ws a, G ws a → ∃ vs as, (Many G vs as ∧ as ≠ []) ∧ vs.tokens = ws.tokens :=
    fun ws a hg => ⟨ws, [a], ⟨.single hg, by simp⟩, rfl⟩
  refine ⟨h.viable.mono hlast, fun c => ?_⟩
  induction hn : c.tokens.length using Nat.strongRecOn generalizing c with
  | ind n ih =>
    intro f hf
    rcases whileMore_eq_error.mp hf with hm | ⟨d, hm, hi⟩
    · exact (hfails c f hm).elim
    · obtain rfl := hmore c d hm
      rcases hi with hi | ⟨a, e, hi, hlt, hw⟩
      · exact (h.fails d f hi).mono hlast
      · obtain ⟨u, hu, ht⟩ := hs d a e hi
        apply (ih e.tokens.length (by omega) e rfl f hw).within ht [] (by simp)
        intro ws as has
        exact ⟨u ++ ws, a :: as, ⟨.cons hu has.1, by simp⟩, by simp⟩

theorem Recovers.untilClosed (h : Recovers item G) (hs : Sound item G) (close : Punctuator) :
    Recovers (untilClosed close item) fun ws as => Many G ws as ∧ as ≠ [] := by
  apply h.whileMore hs
  · intro c
    have hstay : Always (not <$> eat (.punctuator close)) c fun b d => b = true → d = c := by
      rw [always_map, always_eat]
      exact ⟨fun _ hb => absurd hb (by simp), fun _ _ => rfl⟩
    exact fun d hr => hstay true d hr rfl
  · exact fun c => fails_map.mpr fails_eat

theorem Recovers.enclosed (h : Recovers item G) (hs : Sound item G) (opening close : Punctuator) :
    Recovers (enclosed opening close item) fun ws as => Enclosed opening close G ws as ∧ as ≠ [] := by
  have hclose : ∀ t ∈ [Token.punctuator close], t.IsFiller := by simp [Token.IsFiller]
  have hitems : ∀ ws as, Many G ws as → as ≠ [] →
      ∃ vs bs, (Enclosed opening close G vs bs ∧ bs ≠ []) ∧
        vs.tokens = [.punctuator opening] ++ (ws.tokens ++ [.punctuator close]) :=
    fun ws as hm has => ⟨_, as, ⟨.present hm has, has⟩, by simp⟩
  constructor
  · obtain ⟨ws, a, more, hg, hws, hmore⟩ := h.viable
    obtain ⟨vs, as, hvs, heq⟩ := hitems ws [a] (.single hg) (by simp)
    refine .of_fillers hvs ?_
    rw [heq, hws]
    simpa [or_imp, forall_and, Token.IsFiller] using hmore
  · intro c
    rw [Reader.enclosed, fails_bind, always_eat]
    refine ⟨fails_eat, fun hn => ?_, fun _ => fails_pure _⟩
    have hopen : c.Takes [.mark opening] c.advance := ⟨hn, rfl⟩
    simp only [if_true]
    rw [fails_bind]
    constructor
    · intro f hf
      apply (h.fails c.advance f hf).within hopen _ hclose
      exact fun ws a hg => hitems ws [a] (.single hg) (by simp)
    · intro a d ha
      obtain ⟨u, hu, ht⟩ := hs c.advance a d ha
      refine fails_bind.mpr ⟨fun f hf => ?_, fun as e _ => fails_pure _⟩
      apply ((h.untilClosed hs close).fails d f hf).within (hopen.append ht) _ hclose
      intro ws as has
      obtain ⟨vs, bs, hvs, heq⟩ := hitems (u ++ ws) (a :: as) (.cons hu has.1) (by simp)
      exact ⟨vs, bs, hvs, by simp [heq]⟩

theorem Recovers.bracketed (h : Recovers item G) (hs : Sound item G) (opening close : Punctuator)
    (expected : Construct) :
    Recovers (Bracketed.read opening close expected item) fun ws as =>
      ∃ u, Many G u as ∧ ws = .mark opening :: (u ++ [.mark close]) := by
  have hviable : Viable (fun ws as => ∃ u, Many G u as ∧
      ws = .mark opening :: (u ++ [.mark close])) [] :=
    .of_fillers ⟨[], .nil, rfl⟩ (by simp [Token.IsFiller])
  refine .located ⟨hviable, fun c => ?_⟩
  rw [fails_bind, always_expect]
  refine ⟨fails_expect (.start hviable c), fun hn => ?_⟩
  refine fails_bind.mpr ⟨fun f hf => ?_, fun as e _ => fails_pure _⟩
  have hopen : c.Takes [.mark opening] c.advance := ⟨hn, rfl⟩
  apply ((h.untilClosed hs close).fails c.advance f hf).within hopen [.punctuator close]
  · simp [Token.IsFiller]
  · exact fun ws as has => ⟨_, as, ⟨ws, has.1, rfl⟩, by simp⟩

/-- Items that each follow a separator, behind one that has been read. -/
theorem Recovers.row (h : Recovers item G) (hs : Sound item G) {separator : Punctuator} (c : Cursor)
    {u : Phrase} {a : α} (hu : G u a) :
    Fails (Reader.whileMore (eat (.punctuator separator)) item) c fun e =>
      ∃ vs, c.Takes vs e ∧ Viable (Row separator G) (u.tokens ++ vs.tokens) := by
  induction hn : c.tokens.length using Nat.strongRecOn generalizing c u a with
  | ind n ih =>
    intro f hf
    rcases whileMore_eq_error.mp hf with hm | ⟨d, hm, hi⟩
    · exact (fails_eat (Q := fun _ => False) f hm).elim
    · have hsep : Always (eat (.punctuator separator)) c fun b d =>
          b = true → c.Takes [.mark separator] d := by
        rw [always_eat]
        exact ⟨fun hn _ => ⟨hn, rfl⟩, fun _ hb => absurd hb (by simp)⟩
      have htsep := hsep true d hm rfl
      have hgo : ∀ ts, Viable (Row separator G) ts →
          Viable (Row separator G) (u.tokens ++ .punctuator separator :: ts) := by
        intro ts hts
        have hlonger : Viable (Row separator G) ((u.tokens ++ [.punctuator separator]) ++ ts) := by
          apply hts.within _ [] (by simp)
          intro ws as has
          exact ⟨_, _, .cons hu has, by simp⟩
        simpa using hlonger
      rcases hi with hi | ⟨b, e, hi, hlt, hw⟩
      · obtain ⟨vs, ht, hviable⟩ := h.fails d f hi
        refine ⟨_, htsep.append ht, hgo _ (hviable.mono fun ws b hb => ?_)⟩
        exact ⟨ws, [b], .last hb, rfl⟩
      · obtain ⟨v, hv, htv⟩ := hs d b e hi
        obtain ⟨vs, ht, hviable⟩ := ih e.tokens.length (by omega) e hv rfl f hw
        refine ⟨_, htsep.append (htv.append ht), ?_⟩
        have hlonger := hgo _ hviable
        simpa using hlonger

theorem Recovers.separated (h : Recovers item G) (hs : Sound item G) (separator : Punctuator) :
    Recovers (separated separator item) (Separated separator G) := by
  have hlast : ∀ ws a, G ws a → ∃ vs as, Separated separator G vs as ∧ vs.tokens = ws.tokens :=
    fun ws a hg => ⟨ws, [a], .plain (.last hg), rfl⟩
  -- What has been read before the first item is an empty row or the separator.
  have hitems : ∀ (c e : Cursor) (led : Phrase), c.Takes led e →
      (∀ ws as, Row separator G ws as →
        ∃ vs, Separated separator G vs as ∧ vs.tokens = led.tokens ++ ws.tokens) →
      Fails (item >>= fun first => Reader.whileMore (eat (.punctuator separator)) item >>=
        fun rest => pure (first :: rest)) e (c.Partway (Separated separator G)) := by
    intro c e led hled hrow
    rw [fails_bind]
    constructor
    · intro f hf
      apply (h.fails e f hf).within hled [] (by simp)
      intro ws a hg
      obtain ⟨vs, hvs, heq⟩ := hrow ws [a] (.last hg)
      exact ⟨vs, _, hvs, by simp [heq]⟩
    · intro a d ha
      obtain ⟨u, hu, ht⟩ := hs e a d ha
      refine fails_bind.mpr ⟨fun f hf => ?_, fun as g _ => fails_pure _⟩
      obtain ⟨ws, htw, hviable⟩ := h.row hs d hu f hf
      refine ⟨_, hled.append (ht.append htw), ?_⟩
      simp only [Phrase.tokens_append]
      apply hviable.within _ [] (by simp)
      intro ws as has
      obtain ⟨vs, hvs, heq⟩ := hrow ws as has
      exact ⟨vs, as, hvs, by simp [heq]⟩
  refine ⟨h.viable.mono hlast, fun c => ?_⟩
  rw [Reader.separated, fails_bind, always_eat]
  refine ⟨fails_eat, fun hn => ?_, fun _ => ?_⟩
  · apply hitems c c.advance [.mark separator] ⟨hn, rfl⟩
    exact fun ws as hrow => ⟨_, .led hrow, by simp⟩
  · apply hitems c c [] rfl
    exact fun ws as hrow => ⟨_, .plain hrow, by simp⟩

theorem Recovers.behind (h : Recovers item G) {t : Token} (ht : t.IsFiller) :
    Recovers (behind? t item) fun ws a => Behind t G ws a ∧ a ≠ none := by
  have hpresent : ∀ ws a, G ws a →
      ∃ vs b, (Behind t G vs b ∧ b ≠ none) ∧ vs.tokens = [t] ++ (ws.tokens ++ []) :=
    fun ws a hg => ⟨_, some a, ⟨.present hg, by simp⟩, by simp⟩
  constructor
  · obtain ⟨ws, a, more, hg, hws, hmore⟩ := h.viable
    obtain ⟨vs, b, hvs, heq⟩ := hpresent ws a hg
    refine .of_fillers hvs ?_
    rw [heq, hws]
    simpa [ht] using hmore
  · intro c
    rw [behind?, fails_bind, always_eat]
    refine ⟨fails_eat, fun hn => ?_, fun _ => fails_pure _⟩
    refine fails_map.mpr fun f hf => ?_
    have hbefore : c.Takes [.need t] c.advance := ⟨hn, rfl⟩
    exact (h.fails c.advance f hf).within hbefore [] (by simp) hpresent

end Items

end Reader

end GraphQLText
