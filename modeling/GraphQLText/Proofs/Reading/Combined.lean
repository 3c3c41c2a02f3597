import GraphQLText.Proofs.Reading.Phrase
import GraphQLText.Value.Reader

/-!
# Reading lists and optional parts

The readers of enclosed, separated and introduced items are sound and complete if the reader of the
items is.
-/

namespace GraphQLText.Reader

set_option autoImplicit false

variable {α : Type} {item : Reader α} {G : Phrase → α → Prop}

theorem Sound.map {β : Type} {f : α → β} {H : Phrase → β → Prop} (h : Sound item G)
    (hGH : ∀ ws a, G ws a → H ws (f a)) : Sound (f <$> item) H := by
  intro c
  rw [always_map]
  refine (h c).mono ?_
  rintro a d ⟨ws, hg, ht⟩
  exact ⟨ws, hGH ws a hg, ht⟩

theorem Sound.untilClosed (h : Sound item G) (hne : ∀ ws a, G ws a → ws ≠ [])
    (close : Punctuator) (c : Cursor) :
    Always (untilClosed close item) c fun as d =>
      ∃ ws, Many G ws as ∧ c.Takes (ws ++ [.mark close]) d := by
  have hmore : ∀ c d, (not <$> eat (.punctuator close)) c = .ok (true, d) → d = c := by
    intro c
    have hstay : Always (not <$> eat (.punctuator close)) c fun b d => b = true → d = c := by
      rw [always_map, always_eat]
      exact ⟨fun _ hb => absurd hb (by simp), fun _ _ => rfl⟩
    exact fun d hr => hstay true d hr rfl
  refine (h.whileMore hne hmore c).mono ?_
  rintro as d ⟨ws, e, hm, ht, hstop⟩
  have hclosed : Always (not <$> eat (.punctuator close)) e fun b d =>
      b = false → e.next? = some (.punctuator close) ∧ d = e.advance := by
    rw [always_map, always_eat]
    exact ⟨fun hn _ => ⟨hn, rfl⟩, fun _ hb => absurd hb (by simp)⟩
  obtain ⟨hn, rfl⟩ := hclosed false d hstop rfl
  exact ⟨ws, hm, ht.append ⟨hn, rfl⟩⟩

theorem Complete.untilClosed [HasShape α] {bars : α → List Token} {p : Token → Prop}
    {close : Punctuator} (h : Complete item G bars) (hs : Starts G p)
    (hp : ¬ p (.punctuator close)) (hclose : ∀ a, .punctuator close ∉ bars a)
    (hbars : ∀ a t, p t → t ∉ bars a) {ws : Phrase} {as : List α} (hm : Many G ws as)
    {c d : Cursor} (ht : c.Takes (ws ++ [.mark close]) d) :
    Ends (untilClosed close item) c fun bs e => e = d ∧ bare bs = bare as := by
  obtain ⟨e, htw, hn, hd⟩ := Cursor.takes_append.mp ht
  have hmore : ∀ c t, c.next? = some t → p t →
      (not <$> eat (.punctuator close)) c = .ok (true, c) := by
    intro c t hc hpt
    have hne : c.next? ≠ some (.punctuator close) := by
      rw [hc]
      rintro ⟨rfl⟩
      exact hp hpt
    rw [← bind_pure_comp, bind_apply, eat, if_neg hne]
    rfl
  have hstop : (not <$> eat (.punctuator close)) e = .ok (false, d) := by
    rw [Cursor.takes_nil] at hd
    rw [← bind_pure_comp, bind_apply, eat, if_pos hn, hd]
    rfl
  exact h.whileMore hs hmore hbars hm htw
    (fun a _ => Cursor.clear_of_next hn (hclose a)) hstop

theorem Sound.enclosed (h : Sound item G) (hne : ∀ ws a, G ws a → ws ≠ [])
    (opening close : Punctuator) :
    Sound (enclosed opening close item) (Enclosed opening close G) := by
  intro c
  rw [Reader.enclosed, always_bind, always_eat]
  refine ⟨fun hn => ?_, fun _ => ?_⟩
  · simp only [if_true, always_bind, always_pure]
    refine (h c.advance).mono ?_
    rintro a d ⟨u, hu, htu⟩
    refine (h.untilClosed hne close d).mono ?_
    rintro as e ⟨v, hv, htv⟩
    refine ⟨_, .present (.cons hu hv) (by simp), hn, ?_⟩
    rw [List.append_assoc]
    exact htu.append htv
  · simp only [Bool.false_eq_true, if_false, always_pure]
    exact ⟨[], .absent, rfl⟩

theorem Complete.enclosed [HasShape α] {bars : α → List Token} {p : Token → Prop}
    {opening close : Punctuator} (h : Complete item G bars) (hs : Starts G p)
    (hp : ¬ p (.punctuator close)) (hclose : ∀ a, .punctuator close ∉ bars a)
    (hbars : ∀ a t, p t → t ∉ bars a) :
    Complete (enclosed opening close item) (Enclosed opening close G)
      fun as => if as.isEmpty then [.punctuator opening] else [] := by
  intro ws as c d hg ht hd
  rw [Reader.enclosed, ends_bind, ends_eat]
  cases hg with
  | absent =>
    rw [Cursor.takes_nil] at ht
    have hn : c.next? ≠ some (.punctuator opening) := by
      rw [← ht]
      exact hd _ (by simp)
    refine ⟨fun ho => absurd ho hn, fun _ => ?_⟩
    simp only [Bool.false_eq_true, if_false, ends_pure]
    exact ⟨ht.symm, trivial⟩
  | present hm hne =>
    refine ⟨fun _ => ?_, fun ho => absurd ht.1 ho⟩
    simp only [if_true, ends_bind, ends_pure]
    cases hm with
    | nil => exact absurd rfl hne
    | @cons u v a as hu hv =>
      have hrest := ht.2
      rw [List.append_assoc] at hrest
      obtain ⟨e, htu, htv⟩ := Cursor.takes_append.mp hrest
      have hclear : e.Clear (bars a) := by
        obtain ⟨f, htv', hn, _⟩ := Cursor.takes_append.mp htv
        exact hv.clear hs htv' (hbars a) (Cursor.clear_of_next hn (hclose a))
      refine (h u a _ e hu htu hclear).mono ?_
      rintro b _ ⟨rfl, hshape⟩
      refine (h.untilClosed hs hp hclose hbars hv htv).mono ?_
      rintro bs _ ⟨rfl, hshapes⟩
      exact ⟨rfl, by rw [bare_cons, bare_cons, hshape, hshapes]⟩

/-- Where the opening mark is ahead, there are items. -/
theorem always_enclosed_ne_nil {opening close : Punctuator} {c : Cursor}
    (hn : c.next? = some (.punctuator opening)) :
    Always (enclosed opening close item) c fun as _ => as ≠ [] := by
  rw [Reader.enclosed, always_bind, always_eat]
  refine ⟨fun _ => ?_, fun h => absurd hn h⟩
  simp only [if_true, always_bind, always_pure]
  intro a d _ as e _
  simp

/-- Where there are no items, no opening mark is ahead. -/
theorem always_enclosed_clear {opening close : Punctuator} (c : Cursor) :
    Always (enclosed opening close item) c fun as d =>
      as = [] → d.next? ≠ some (.punctuator opening) := by
  rw [Reader.enclosed, always_bind, always_eat]
  refine ⟨fun _ => ?_, fun h => ?_⟩
  · simp only [if_true, always_bind, always_pure]
    intro a d _ as e _ hnil
    exact absurd hnil (by simp)
  · simp only [Bool.false_eq_true, if_false, always_pure]
    exact fun _ => h

/-- Items in brackets that must be there. -/
theorem Sound.bracketed (h : Sound item G) (hne : ∀ ws a, G ws a → ws ≠ [])
    (opening close : Punctuator) (expected : Construct) (c : Cursor) :
    Always (Bracketed.read opening close expected item) c fun b d =>
      ∃ u, Many G u b.items ∧ c.Takes (.mark opening :: (u ++ [.mark close])) d := by
  rw [Bracketed.read, always_located]
  simp only [always_bind, always_expect, always_pure]
  intro hn
  refine (h.untilClosed hne close c.advance).mono ?_
  rintro as d ⟨u, hm, ht⟩
  exact ⟨u, hm, hn, ht⟩

theorem Complete.bracketed [HasShape α] {bars : α → List Token} {p : Token → Prop}
    {opening close : Punctuator} {expected : Construct} (h : Complete item G bars)
    (hs : Starts G p) (hp : ¬ p (.punctuator close)) (hclose : ∀ a, .punctuator close ∉ bars a)
    (hbars : ∀ a t, p t → t ∉ bars a) {u : Phrase} {b : Bracketed α} (hm : Many G u b.items)
    {c d : Cursor} (ht : c.Takes (.mark opening :: (u ++ [.mark close])) d) :
    Ends (Bracketed.read opening close expected item) c fun b' e => e = d ∧ bare b' = bare b := by
  rw [Bracketed.read, ends_located]
  simp only [ends_bind, ends_expect, ends_pure]
  refine ⟨ht.1, (h.untilClosed hs hp hclose hbars hm ht.2).mono ?_⟩
  rintro as e ⟨rfl, hshape⟩
  refine ⟨rfl, ?_⟩
  change (⟨bare as, Span.zero⟩ : Bracketed α) = ⟨bare b.items, Span.zero⟩
  rw [hshape]

theorem Sound.row (h : Sound item G) (separator : Punctuator) {u : Phrase} {a : α}
    (hu : G u a) (c : Cursor) :
    Always (Reader.whileMore (eat (.punctuator separator)) item) c fun as d =>
      ∃ v, Row separator G (u ++ v) (a :: as) ∧ c.Takes v d := by
  induction hn : c.tokens.length using Nat.strongRecOn generalizing c u a with
  | ind n ih =>
    apply always_whileMore
    · rw [always_eat]
      refine ⟨fun _ hb => absurd hb (by simp), fun _ _ => ⟨[], ?_, rfl⟩⟩
      rw [List.append_nil]
      exact .last hu
    · rw [always_eat]
      refine ⟨fun hsep _ => ?_, fun _ hb => absurd hb (by simp)⟩
      refine (h c.advance).mono ?_
      rintro b f ⟨v, hv, htv⟩
      have hfirst := Cursor.length_advance hsep
      have hitem := htv.length
      have hlt : f.tokens.length < c.tokens.length := by omega
      refine ⟨hlt, (ih f.tokens.length (by omega) hv f rfl).mono ?_⟩
      rintro as d ⟨w, hrow, htw⟩
      exact ⟨.mark separator :: (v ++ w), .cons hu hrow, hsep, htv.append htw⟩

theorem Sound.separated (h : Sound item G) (separator : Punctuator) :
    Sound (separated separator item) (Separated separator G) := by
  intro c
  simp only [Reader.separated, always_bind, always_eat, always_pure]
  refine ⟨fun hn => ?_, fun _ => ?_⟩
  · refine (h c.advance).mono ?_
    rintro a d ⟨u, hu, htu⟩
    refine (h.row separator hu d).mono ?_
    rintro as e ⟨v, hrow, htv⟩
    exact ⟨_, .led hrow, hn, htu.append htv⟩
  · refine (h c).mono ?_
    rintro a d ⟨u, hu, htu⟩
    refine (h.row separator hu d).mono ?_
    rintro as e ⟨v, hrow, htv⟩
    exact ⟨_, .plain hrow, htu.append htv⟩

/-- Behind its first item, a row goes on for as long as its separator follows. -/
theorem Complete.row [HasShape α] (h : Complete item G fun _ => []) (separator : Punctuator)
    {ws : Phrase} {as : List α} (hrow : Row separator G ws as) {c d : Cursor}
    (ht : c.Takes ws d) (hd : d.next? ≠ some (.punctuator separator)) :
    Ends item c fun a e => e.tokens.length ≤ c.tokens.length ∧
      Ends (Reader.whileMore (eat (.punctuator separator)) item) e fun bs f =>
        f = d ∧ bare (a :: bs) = bare as := by
  induction hrow generalizing c with
  | @last u a hu =>
    refine (h u a c d hu ht (Cursor.clear_nil d)).mono ?_
    rintro b e ⟨rfl, hshape⟩
    have hlen := ht.length
    refine ⟨by omega, [], e, ?_, rfl, by simp [hshape]⟩
    rw [whileMore_apply, bind_apply, eat, if_neg hd]
    rfl
  | @cons u v a as hu _ ih =>
    obtain ⟨e, htu, hsep, htv⟩ := Cursor.takes_append.mp ht
    refine (h u a c e hu htu (Cursor.clear_nil e)).mono ?_
    rintro b e ⟨rfl, hshape⟩
    have hlen := htu.length
    have hfirst := Cursor.length_advance hsep
    obtain ⟨b', f, hb, hle, bs, g, hbs, rfl, hshapes⟩ := ih htv
    refine ⟨by omega, b' :: bs, g, ?_, rfl, ?_⟩
    · have hlt : f.tokens.length < e.tokens.length := by omega
      rw [whileMore_apply, bind_apply, eat, if_pos hsep]
      simp only [if_true, bind_apply, hb, if_pos hlt]
      rw [← bind_pure_comp, bind_apply, hbs]
      rfl
    · rw [bare_cons, hshape, hshapes, bare_cons]

theorem Complete.separated [HasShape α] (h : Complete item G fun _ => []) {p : Token → Prop}
    (hs : Starts G p) {separator : Punctuator} (hp : ¬ p (.punctuator separator)) :
    Complete (separated separator item) (Separated separator G)
      fun _ => [.punctuator separator] := by
  intro ws as c d hg ht hd
  have hstop : d.next? ≠ some (.punctuator separator) := hd _ (by simp)
  simp only [Reader.separated, ends_bind, ends_eat, ends_pure]
  cases hg with
  | plain hrow =>
    have hn : c.next? ≠ some (.punctuator separator) := by
      intro hn
      cases hrow with
      | last hu =>
        obtain ⟨t, hc, hpt⟩ := hs.next? hu ht
        rw [hn, Option.some.injEq] at hc
        exact hp (hc ▸ hpt)
      | cons hu _ =>
        obtain ⟨e, htu, _⟩ := Cursor.takes_append.mp ht
        obtain ⟨t, hc, hpt⟩ := hs.next? hu htu
        rw [hn, Option.some.injEq] at hc
        exact hp (hc ▸ hpt)
    refine ⟨fun ho => absurd ho hn, fun _ => (h.row separator hrow ht hstop).mono ?_⟩
    intro a e hrest
    exact hrest.2
  | led hrow =>
    refine ⟨fun _ => (h.row separator hrow ht.2 hstop).mono ?_, fun ho => absurd ht.1 ho⟩
    intro a e hrest
    exact hrest.2

theorem Sound.behind (h : Sound item G) (t : Token) :
    Sound (behind? t item) (Behind t G) := by
  intro c
  rw [behind?, always_bind, always_eat]
  refine ⟨fun hn => ?_, fun _ => ?_⟩
  · simp only [if_true, always_map]
    refine (h c.advance).mono ?_
    rintro a d ⟨u, hu, ht⟩
    exact ⟨_, .present hu, hn, ht⟩
  · simp only [Bool.false_eq_true, if_false, always_pure]
    exact ⟨[], .absent, rfl⟩

theorem Complete.behind [HasShape α] (h : Complete item G fun _ => []) (t : Token) :
    Complete (behind? t item) (Behind t G) fun _ => [t] := by
  intro ws a c d hg ht hd
  rw [behind?, ends_bind, ends_eat]
  cases hg with
  | absent =>
    rw [Cursor.takes_nil] at ht
    have hn : c.next? ≠ some t := by
      rw [← ht]
      exact hd t (by simp)
    refine ⟨fun ho => absurd ho hn, fun _ => ?_⟩
    simp only [Bool.false_eq_true, if_false, ends_pure]
    exact ⟨ht.symm, trivial⟩
  | @present u a hu =>
    refine ⟨fun _ => ?_, fun ho => absurd ht.1 ho⟩
    simp only [if_true, ends_map]
    refine (h u a _ d hu ht.2 (Cursor.clear_nil d)).mono ?_
    rintro b e ⟨rfl, hshape⟩
    exact ⟨rfl, by rw [bare_some, bare_some, hshape]⟩

end GraphQLText.Reader
