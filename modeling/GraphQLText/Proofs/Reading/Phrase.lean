import GraphQLText.Node.Shape
import GraphQLText.Proofs.Grammar.Phrase
import GraphQLText.Proofs.Reading.Outcome

/-!
# Reading phrases

A reader is sound for a grammar if all that it takes is a phrase of the node that it gives, and
complete if it takes every phrase of the grammar, unless one of a few tokens follows that would go
on with the node. The readers that are put together from others inherit both.
-/

namespace GraphQLText

set_option autoImplicit false

namespace Cursor

/-- The phrase is ahead, and the other place is right behind it. -/
def Takes : Cursor → Phrase → Cursor → Prop
  | c, [], d => d = c
  | c, w :: ws, d => c.next? = some w.token ∧ Takes c.advance ws d

def Clear (c : Cursor) (bars : List Token) : Prop :=
  ∀ t ∈ bars, c.next? ≠ some t

theorem takes_cons {c d : Cursor} {w : Word} {ws : Phrase} :
    c.Takes (w :: ws) d ↔ c.next? = some w.token ∧ c.advance.Takes ws d :=
  Iff.rfl

theorem Takes.cons {c d : Cursor} {t : Token} {ws : Phrase} (hn : c.next? = some t)
    (h : c.advance.Takes ws d) : c.Takes (.need t :: ws) d :=
  ⟨hn, h⟩

theorem takes_nil {c d : Cursor} : c.Takes [] d ↔ d = c :=
  Iff.rfl

theorem takes_append {c d : Cursor} {us vs : Phrase} :
    c.Takes (us ++ vs) d ↔ ∃ e, c.Takes us e ∧ e.Takes vs d := by
  induction us generalizing c with
  | nil =>
    constructor
    · intro h
      exact ⟨c, rfl, h⟩
    · rintro ⟨e, rfl, h⟩
      exact h
  | cons w us ih =>
    rw [List.cons_append, takes_cons, ih]
    constructor
    · rintro ⟨hn, e, hu, hv⟩
      exact ⟨e, ⟨hn, hu⟩, hv⟩
    · rintro ⟨e, ⟨hn, hu⟩, hv⟩
      exact ⟨hn, e, hu, hv⟩

theorem Takes.append {c d e : Cursor} {us vs : Phrase} (hu : c.Takes us e) (hv : e.Takes vs d) :
    c.Takes (us ++ vs) d :=
  takes_append.mpr ⟨e, hu, hv⟩

theorem length_advance {c : Cursor} {t : Token} (h : c.next? = some t) :
    c.tokens.length = c.advance.tokens.length + 1 := by
  unfold next? at h
  unfold advance
  split <;> simp_all

theorem Takes.length {c d : Cursor} {ws : Phrase} (h : c.Takes ws d) :
    c.tokens.length = d.tokens.length + ws.length := by
  induction ws generalizing c with
  | nil =>
    rw [takes_nil] at h
    simp [h]
  | cons w ws ih =>
    have hrest := ih h.2
    have hfirst := length_advance h.1
    rw [List.length_cons]
    omega

theorem Takes.length_lt {c d : Cursor} {ws : Phrase} (h : c.Takes ws d) (hne : ws ≠ []) :
    d.tokens.length < c.tokens.length := by
  have hlen := h.length
  have hpos := List.length_pos_iff.mpr hne
  omega

theorem Takes.head? {c d : Cursor} {ws : Phrase} (h : c.Takes ws d) (hne : ws ≠ []) :
    ws.tokens.head? = c.next? := by
  cases ws with
  | nil => exact absurd rfl hne
  | cons w ws => exact h.1.symm

theorem Clear.mono {c : Cursor} {bars bars' : List Token} (h : c.Clear bars)
    (hsub : ∀ t ∈ bars', t ∈ bars) : c.Clear bars' :=
  fun t ht => h t (hsub t ht)

theorem clear_nil (c : Cursor) : c.Clear [] := by
  intro t ht
  simp at ht

theorem clear_of_next {c : Cursor} {t : Token} (hn : c.next? = some t) {bars : List Token}
    (h : t ∉ bars) : c.Clear bars := by
  intro u hu heq
  rw [hn, Option.some.injEq] at heq
  rw [heq] at h
  exact h hu

theorem Takes.clear {c d : Cursor} {ws : Phrase} (h : c.Takes ws d) {bars : List Token}
    (hs : ∀ w ∈ ws.head?, w.token ∉ bars) (hd : d.Clear bars) : c.Clear bars := by
  cases ws with
  | nil =>
    rw [takes_nil] at h
    rwa [← h]
  | cons w ws => exact clear_of_next h.1 (hs w rfl)

end Cursor

variable {α β : Type}

def Starts (G : Phrase → α → Prop) (p : Token → Prop) : Prop :=
  ∀ ws a, G ws a → ∃ w rest, ws = w :: rest ∧ p w.token

namespace Starts

variable {G : Phrase → α → Prop} {p : Token → Prop}

theorem ne_nil (h : Starts G p) {ws : Phrase} {a : α} (hg : G ws a) : ws ≠ [] := by
  obtain ⟨w, rest, rfl, _⟩ := h ws a hg
  simp

theorem next? (h : Starts G p) {ws : Phrase} {a : α} (hg : G ws a) {c d : Cursor}
    (ht : c.Takes ws d) : ∃ t, c.next? = some t ∧ p t := by
  obtain ⟨w, rest, rfl, hp⟩ := h ws a hg
  exact ⟨w.token, ht.1, hp⟩

end Starts

section Heads

variable {G : Phrase → α → Prop} {ws : Phrase} {c d : Cursor} {bars : List Token}

theorem Many.clear {p : Token → Prop} {as : List α} (h : Many G ws as) (hs : Starts G p)
    (ht : c.Takes ws d) (hp : ∀ t, p t → t ∉ bars) (hd : d.Clear bars) : c.Clear bars := by
  cases h with
  | nil => exact ht.clear (by simp) hd
  | cons hu hv =>
    obtain ⟨e, hue, _⟩ := Cursor.takes_append.mp ht
    obtain ⟨t, hn, hpt⟩ := hs.next? hu hue
    exact Cursor.clear_of_next hn (hp t hpt)

theorem Behind.clear {t : Token} {a : Option α} (h : Behind t G ws a) (ht : c.Takes ws d)
    (hb : t ∉ bars) (hd : d.Clear bars) : c.Clear bars := by
  cases h with
  | absent => exact ht.clear (by simp) hd
  | present hu => exact Cursor.clear_of_next ht.1 hb

theorem Enclosed.clear {opening close : Punctuator} {as : List α}
    (h : Enclosed opening close G ws as) (ht : c.Takes ws d)
    (hb : .punctuator opening ∉ bars) (hd : d.Clear bars) : c.Clear bars := by
  cases h with
  | absent => exact ht.clear (by simp) hd
  | present hu hne => exact Cursor.clear_of_next ht.1 hb

theorem Enclosed.clear_of_ne_nil {opening close : Punctuator} {as : List α}
    (h : Enclosed opening close G ws as) (hne : as ≠ []) (ht : c.Takes ws d)
    (hb : .punctuator opening ∉ bars) : c.Clear bars := by
  cases h with
  | absent => exact absurd rfl hne
  | present _ _ => exact Cursor.clear_of_next ht.1 hb

theorem Introduced.clear {t : Token} {separator : Punctuator} {as : List α}
    (h : Introduced t separator G ws as) (ht : c.Takes ws d)
    (hb : t ∉ bars) (hd : d.Clear bars) : c.Clear bars := by
  cases h with
  | absent => exact ht.clear (by simp) hd
  | present hu => exact Cursor.clear_of_next ht.1 hb

end Heads

namespace Reader

/-- What the reader takes is a phrase of the node that it gives. -/
def Sound (r : Reader α) (G : Phrase → α → Prop) : Prop :=
  ∀ c, Always r c fun a d => ∃ ws, G ws a ∧ c.Takes ws d

/-- The reader takes every phrase of a node and gives that node, unless a bar to it follows. -/
def Complete [HasShape α] (r : Reader α) (G : Phrase → α → Prop) (bars : α → List Token) : Prop :=
  ∀ ws a c d, G ws a → c.Takes ws d → d.Clear (bars a) →
    Ends r c fun b e => e = d ∧ bare b = bare a

theorem Ends.map [HasShape α] [HasShape β] {r : Reader α} {c d : Cursor} {a : α} {f : α → β}
    (h : Ends r c fun b e => e = d ∧ bare b = bare a)
    (hf : ∀ b, bare b = bare a → bare (f b) = bare (f a)) :
    Ends (f <$> r) c fun b e => e = d ∧ bare b = bare (f a) := by
  rw [ends_map]
  refine h.mono ?_
  rintro b e ⟨he, hb⟩
  exact ⟨he, hf b hb⟩

theorem Complete.mono [HasShape α] {r : Reader α} {G : Phrase → α → Prop}
    {bars bars' : α → List Token} (h : Complete r G bars)
    (hsub : ∀ a t, t ∈ bars a → t ∈ bars' a) : Complete r G bars' :=
  fun ws a c d hg ht hd => h ws a c d hg ht (hd.mono (hsub a))

section Items

variable {more : Reader Bool} {item : Reader α} {G : Phrase → α → Prop}

theorem whileMore_apply (more : Reader Bool) (item : Reader α) (c : Cursor) :
    whileMore more item c =
      (more >>= fun b =>
        if b then
          item >>= fun a => fun e =>
            if e.tokens.length < c.tokens.length then (List.cons a <$> whileMore more item) e
            else .ok ([a], e)
        else pure []) c := by
  rw [whileMore, bind_apply]
  cases more c with
  | error failure => rfl
  | ok p =>
    obtain ⟨b, d⟩ := p
    cases b with
    | false => rfl
    | true =>
      simp only [if_true, bind_apply]
      cases item d with
      | error failure => rfl
      | ok q =>
        obtain ⟨a, e⟩ := q
        simp only
        split
        · rw [← bind_pure_comp, bind_apply]
          cases whileMore more item e <;> rfl
        · rfl

/-- To know what comes of reading items, it is enough to look at one round. -/
theorem always_whileMore {Q : List α → Cursor → Prop} {c : Cursor}
    (hnone : Always more c fun b d => b = false → Q [] d)
    (hsome : Always more c fun b d => b = true → Always item d fun a e =>
      e.tokens.length < c.tokens.length ∧
        Always (whileMore more item) e fun as f => Q (a :: as) f) :
    Always (whileMore more item) c Q := by
  intro as d hr
  rw [whileMore_apply] at hr
  revert as d
  rw [← Always, always_bind]
  intro b e hb
  cases b with
  | false =>
    simp only [Bool.false_eq_true, if_false, always_pure]
    exact hnone false e hb rfl
  | true =>
    simp only [if_true, always_bind]
    refine (hsome true e hb rfl).mono ?_
    rintro a f ⟨hlt, hrest⟩ as d hr
    simp only [if_pos hlt] at hr
    revert as d
    rw [← Always, always_map]
    exact hrest

/-- What is read while there is more is a row of items, and there is no more behind it. -/
theorem Sound.whileMore (h : Sound item G) (hne : ∀ ws a, G ws a → ws ≠ [])
    (hmore : ∀ c d, more c = .ok (true, d) → d = c) (c : Cursor) :
    Always (whileMore more item) c fun as d =>
      ∃ ws e, Many G ws as ∧ c.Takes ws e ∧ more e = .ok (false, d) := by
  induction hn : c.tokens.length using Nat.strongRecOn generalizing c with
  | ind n ih =>
    apply always_whileMore
    · rintro b e hb rfl
      exact ⟨[], c, .nil, rfl, hb⟩
    · rintro b e hb rfl
      obtain rfl := hmore c e hb
      refine (h e).mono ?_
      rintro a f ⟨u, hu, htu⟩
      have hlt := htu.length_lt (hne u a hu)
      refine ⟨hlt, (ih f.tokens.length (by omega) f rfl).mono ?_⟩
      rintro as d ⟨v, g, hv, htv, hstop⟩
      exact ⟨u ++ v, g, .cons hu hv, htu.append htv, hstop⟩

/-- A row of items is read while there is more, as long as no item goes on with the next. -/
theorem Complete.whileMore [HasShape α] {bars : α → List Token} {p : Token → Prop}
    (h : Complete item G bars) (hs : Starts G p)
    (hmore : ∀ c t, c.next? = some t → p t → more c = .ok (true, c))
    (hbars : ∀ a t, p t → t ∉ bars a) {ws : Phrase} {as : List α} (hm : Many G ws as)
    {c d e : Cursor} (ht : c.Takes ws d) (hd : ∀ a ∈ as, d.Clear (bars a))
    (hstop : more d = .ok (false, e)) :
    Ends (whileMore more item) c fun bs f => f = e ∧ bare bs = bare as := by
  induction hm generalizing c with
  | nil =>
    rw [Cursor.takes_nil] at ht
    refine ⟨[], e, ?_, rfl, rfl⟩
    rw [whileMore_apply, bind_apply, ← ht, hstop]
    rfl
  | @cons u v a as hu hv ih =>
    obtain ⟨f, htu, htv⟩ := Cursor.takes_append.mp ht
    obtain ⟨t, hn, hp⟩ := hs.next? hu htu
    have hclear : f.Clear (bars a) := hv.clear hs htv (hbars a) (hd a (by simp))
    obtain ⟨b, g, hb, rfl, hshape⟩ := h u a c f hu htu hclear
    obtain ⟨bs, g', hbs, rfl, hshapes⟩ := ih htv fun x hx => hd x (by simp [hx])
    refine ⟨b :: bs, g', ?_, rfl, ?_⟩
    · have hlt := htu.length_lt (hs.ne_nil hu)
      rw [whileMore_apply, bind_apply, hmore c t hn hp]
      simp only [if_true, bind_apply, hb, if_pos hlt]
      rw [← bind_pure_comp, bind_apply, hbs]
      rfl
    · rw [bare_cons, bare_cons, hshape, hshapes]

end Items

end Reader

end GraphQLText
