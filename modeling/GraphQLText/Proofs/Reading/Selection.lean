import GraphQLText.Proofs.Grammar.Executable
import GraphQLText.Proofs.Reading.Value
import GraphQLText.Selection.Reader

/-!
# Reading selections takes their phrases

The readers of fields and fragments are sound and complete for their grammars, given those of the
selections below them. Selections nest like values, and the length of a phrase bounds the depth
again.
-/

namespace GraphQLText

set_option autoImplicit false

open Reader

namespace Selection

def Begins (t : Token) : Prop :=
  (∃ s, t = .name s) ∨ t = .punctuator .ellipsis

def bars : List Token :=
  [.punctuator .colon, .punctuator .openParen, .punctuator .atSign, .punctuator .openBrace]

theorem not_mem_bars {t : Token} (h : Begins t) : t ∉ bars := by
  rcases h with ⟨s, rfl⟩ | rfl <;> simp [bars]

end Selection

section Sets

variable {selection : Reader Selection} {G : Phrase → Selection → Prop} {expected : Construct}

theorem SelectionSet.sound_readOf (h : Sound selection G) (hne : ∀ ws s, G ws s → ws ≠ []) :
    Sound (SelectionSet.readOf selection) fun ws s =>
      Enclosed .openBrace .closeBrace G ws s.items := by
  intro c
  simp only [SelectionSet.readOf, always_bind, always_at?, always_ite, always_located, always_pure]
  refine ⟨fun _ => ?_, fun _ => ⟨[], .absent, rfl⟩⟩
  exact h.enclosed hne .openBrace .closeBrace c

theorem SelectionSet.complete_readOf (h : Complete selection G fun _ => Selection.bars)
    (hs : Starts G Selection.Begins) :
    Complete (SelectionSet.readOf selection)
      (fun ws s => Enclosed .openBrace .closeBrace G ws s.items)
      fun s => if s.items.isEmpty then [.punctuator .openBrace] else [] := by
  rintro ws ⟨items, span⟩ c d hg ht hd
  have hread : Ends (enclosed .openBrace .closeBrace selection) c
      fun b e => e = d ∧ bare b = bare items :=
    h.enclosed hs (by simp [Selection.Begins]) (by simp [Selection.bars])
      (fun _ _ => Selection.not_mem_bars) ws items c d hg ht hd
  simp only [SelectionSet.readOf, ends_bind, ends_at?, ends_ite, ends_located, ends_pure]
  refine ⟨fun _ => hread.mono ?_, fun hn => ?_⟩
  · rintro items e ⟨rfl, hshape⟩
    exact ⟨rfl, congrArg (Bracketed.mk · Span.zero) hshape⟩
  · cases hg with
    | absent => exact ⟨ht.symm, rfl⟩
    | present _ _ => exact absurd (by simp [ht.1]) hn

theorem SelectionSet.sound_readBodyOf (h : Sound selection G) (hne : ∀ ws s, G ws s → ws ≠ []) :
    Sound (SelectionSet.readBodyOf expected selection) fun ws s =>
      Enclosed .openBrace .closeBrace G ws s.items ∧ s.items ≠ [] := by
  intro c
  simp only [SelectionSet.readBodyOf, always_bind, always_at?, always_ite]
  refine ⟨fun hn => ?_, fun _ => always_fail⟩
  have hitems : Always (SelectionSet.readOf selection) c fun s _ => s.items ≠ [] := by
    simp only [SelectionSet.readOf, always_bind, always_at?, always_ite, always_located,
      always_pure]
    exact ⟨fun _ => always_enclosed_ne_nil (by simpa using hn), fun h => absurd hn h⟩
  refine ((SelectionSet.sound_readOf h hne c).and hitems).mono ?_
  rintro s d ⟨⟨ws, hg, ht⟩, hs⟩
  exact ⟨ws, ⟨hg, hs⟩, ht⟩

theorem SelectionSet.complete_readBodyOf (h : Complete selection G fun _ => Selection.bars)
    (hs : Starts G Selection.Begins) :
    Complete (SelectionSet.readBodyOf expected selection)
      (fun ws s => Enclosed .openBrace .closeBrace G ws s.items ∧ s.items ≠ [])
      fun _ => [] := by
  rintro ws ⟨items, span⟩ c d ⟨hg, hitems⟩ ht _
  have hread := SelectionSet.complete_readOf h hs ws ⟨items, span⟩ c d hg ht
    ((Cursor.clear_nil d).mono (by simp [hitems]))
  simp only [SelectionSet.readBodyOf, ends_bind, ends_at?, ends_ite]
  refine ⟨fun _ => hread, fun hn => ?_⟩
  cases hg with
  | absent => exact absurd rfl hitems
  | present _ _ => exact absurd (by simp [ht.1]) hn

end Sets

section Parts

variable {selection : Reader Selection} {G : Phrase → Selection → Prop}

theorem Field.sound_readOf (h : Sound selection G) (hne : ∀ ws s, G ws s → ws ≠ []) :
    Sound (Field.readOf selection) (FieldOf.Derives G) := by
  intro c
  simp only [Field.readOf, behind?, always_located, always_bind, always_nameToken, always_eat,
    always_pure, always_ite, always_map]
  intro first hfirst
  -- What follows the name is the same with and without an alias.
  have hrest : ∀ (a : Option String) (name : String) (e : Cursor),
      Always (Argument.readAll false) e fun arguments d₁ =>
        Always (Directive.readAll false) d₁ fun directives d₂ =>
          Always (SelectionSet.readOf selection) d₂ fun selections d =>
            ∃ ws, (∀ label span, FieldOf.Label label a →
              FieldOf.Derives G (label ++ .name name :: ws)
                ⟨a, name, arguments, directives, selections, span⟩) ∧ e.Takes ws d := by
    intro a name e
    refine (Argument.sound_readAll false e).mono ?_
    rintro arguments d₁ ⟨u, hu, htu⟩
    refine (Directive.sound_readAll false d₁).mono ?_
    rintro directives d₂ ⟨v, hv, htv⟩
    refine (SelectionSet.sound_readOf h hne d₂).mono ?_
    rintro selections d ⟨w, hw, htw⟩
    exact ⟨u ++ (v ++ w), fun _ span hl =>
      .intro ⟨a, name, arguments, directives, selections, span⟩ hl hu hv hw,
      htu.append (htv.append htw)⟩
  refine ⟨fun hc => ⟨fun _ second hsecond => ?_, fun hno => absurd trivial hno⟩, fun _ =>
    ⟨fun hno => absurd hno (by simp), fun _ => ?_⟩⟩
  · refine (hrest (some first) second _).mono fun arguments d₁ h₁ => ?_
    refine h₁.mono fun directives d₂ h₂ => h₂.mono fun selections d h₃ => ?_
    obtain ⟨ws, hg, ht⟩ := h₃
    exact ⟨_, hg _ _ (.present first), hfirst, hc, hsecond, ht⟩
  · refine (hrest none first _).mono fun arguments d₁ h₁ => ?_
    refine h₁.mono fun directives d₂ h₂ => h₂.mono fun selections d h₃ => ?_
    obtain ⟨ws, hg, ht⟩ := h₃
    exact ⟨_, hg _ _ .absent, hfirst, ht⟩

theorem Field.complete_readOf (h : Complete selection G fun _ => Selection.bars)
    (hs : Starts G Selection.Begins) :
    Complete (Field.readOf selection) (FieldOf.Derives G) fun _ => Selection.bars := by
  intro ws f c d hg ht hd
  cases hg with
  | @intro label u v w _ hlabel hu hv hw =>
    obtain ⟨e, hte, hname, htr⟩ := Cursor.takes_append.mp ht
    obtain ⟨d₁, htu, htvw⟩ := Cursor.takes_append.mp htr
    obtain ⟨d₂, htv, htw⟩ := Cursor.takes_append.mp htvw
    -- What could go on with a part is not ahead behind it, whichever of the next parts are there.
    have hd₂ : d₂.Clear [.punctuator .atSign, .punctuator .openParen, .punctuator .colon] :=
      hw.clear htw (by simp) (hd.mono (by simp [Selection.bars]))
    have hd₁ : d₁.Clear [.punctuator .openParen, .punctuator .colon] :=
      Directive.clear_of_all hv htv (by simp) (hd₂.mono (by simp))
    have hcolon : e.advance.Clear [.punctuator .colon] :=
      hu.clear htu (by simp) (hd₁.mono (by simp))
    have harguments := Argument.complete_readAll false u f.arguments _ d₁ hu htu
      (hd₁.mono (by simp))
    have hdirectives := Directive.complete_readAll false v f.directives d₁ d₂ hv htv
      (hd₂.mono (by simp))
    have hselections := SelectionSet.complete_readOf h hs w f.selections d₂ d hw htw
      (hd.mono fun t ht => by simp only at ht; split at ht <;> simp_all [Selection.bars])
    have hrest : Ends (Argument.readAll false) e.advance fun arguments d₁ =>
        Ends (Directive.readAll false) d₁ fun directives d₂ =>
          Ends (SelectionSet.readOf selection) d₂ fun selections d' =>
            d' = d ∧ ∀ span, bare (⟨f.aliasName, f.name, arguments, directives, selections, span⟩ :
              Field) = bare f := by
      refine harguments.mono ?_
      rintro arguments _ ⟨rfl, h₁⟩
      refine hdirectives.mono ?_
      rintro directives _ ⟨rfl, h₂⟩
      refine hselections.mono ?_
      rintro selections _ ⟨rfl, h₃⟩
      refine ⟨rfl, fun span => ?_⟩
      change FieldOf.mk f.aliasName f.name (bare arguments) (bare directives) (bare selections)
        Span.zero = FieldOf.mk f.aliasName f.name (bare f.arguments) (bare f.directives)
        (bare f.selections) Span.zero
      rw [h₁, h₂, h₃]
    simp only [Field.readOf, behind?, ends_located, ends_bind, ends_nameToken, ends_eat, ends_pure,
      ends_ite, ends_map]
    obtain ⟨aliasName, name, arguments, directives, selections, span⟩ := f
    cases hlabel with
    | absent =>
      obtain rfl := hte
      refine ⟨name, hname, fun hc => absurd hc (hcolon _ (by simp)), fun _ =>
        ⟨fun hno => absurd hno (by simp), fun _ => ?_⟩⟩
      exact hrest.mono fun arguments d₁ h₁ => h₁.mono fun directives d₂ h₂ =>
        h₂.mono fun selections d h₃ => ⟨h₃.1, h₃.2 _⟩
    | present a =>
      obtain ⟨hfirst, hc, rfl⟩ := hte
      refine ⟨a, hfirst, fun _ => ⟨fun _ => ⟨name, hname, ?_⟩, fun hno => absurd trivial hno⟩,
        fun hno => absurd hc hno⟩
      exact hrest.mono fun arguments d₁ h₁ => h₁.mono fun directives d₂ h₂ =>
        h₂.mono fun selections d h₃ => ⟨h₃.1, h₃.2 _⟩

/-- A spread is read alike with its ellipsis ahead and behind it. -/
theorem FragmentSpread.sound_read {c e : Cursor} {b : Bool}
    (he : eat (.punctuator .ellipsis) c = .ok (b, e)) :
    Always FragmentSpread.read c fun s d =>
      ∃ ws, FragmentSpread.Derives (.mark .ellipsis :: ws) s ∧ e.Takes ws d := by
  rw [FragmentSpread.read, always_located, always_bind_of_ok he]
  simp only [always_bind, always_at?, always_ite, always_relabel, always_pure]
  refine ⟨fun _ => always_fail, fun hon => ?_⟩
  refine (TypeName.sound_read e).mono ?_
  rintro name d₁ ⟨u, hu, htu⟩
  refine (Directive.sound_readAll false d₁).mono ?_
  rintro directives d ⟨v, hv, htv⟩
  cases hu
  refine ⟨_, .intro ⟨name, directives, _⟩ ?_ hv, htu.append htv⟩
  rintro hname
  rw [← hname] at hon
  exact hon (by simp [htu.1])

theorem FragmentSpread.ends_read {c d e : Cursor} {b : Bool} {ws : Phrase}
    {s : FragmentSpread} (he : eat (.punctuator .ellipsis) c = .ok (b, e))
    (hg : FragmentSpread.Derives (.mark .ellipsis :: ws) s) (ht : e.Takes ws d)
    (hd : d.Clear Selection.bars) :
    Ends FragmentSpread.read c fun s' d' => d' = d ∧ bare s' = bare s := by
  cases hg with
  | intro _ hname hv =>
    rw [FragmentSpread.read, ends_located, ends_bind_of_ok he]
    simp only [ends_bind, ends_at?, ends_ite, ends_relabel, ends_pure]
    refine ⟨fun hon => absurd (by simpa [ht.1] using hon) hname, fun _ => ?_⟩
    refine (TypeName.complete_read _ s.name e _ (.intro _) ⟨ht.1, rfl⟩ (Cursor.clear_nil _)).mono ?_
    rintro name _ ⟨rfl, h₁⟩
    refine (Directive.complete_readAll false _ _ _ d hv ht.2
      (hd.mono (by simp [Selection.bars]))).mono ?_
    rintro directives _ ⟨rfl, h₂⟩
    refine ⟨rfl, ?_⟩
    change FragmentSpread.mk (bare name) (bare directives) Span.zero =
      FragmentSpread.mk (bare s.name) (bare s.directives) Span.zero
    rw [h₁, h₂]

/-- An inline fragment is read alike with its ellipsis ahead and behind it. -/
theorem InlineFragment.sound_readOf (h : Sound selection G) (hne : ∀ ws s, G ws s → ws ≠ [])
    {c e : Cursor} {b : Bool} (he : eat (.punctuator .ellipsis) c = .ok (b, e)) :
    Always (InlineFragment.readOf selection) c fun f d =>
      ∃ ws, InlineFragmentOf.Derives G (.mark .ellipsis :: ws) f ∧ e.Takes ws d := by
  rw [InlineFragment.readOf, always_located, always_bind_of_ok he]
  simp only [always_bind, always_pure]
  refine (TypeName.sound_read.behind _ e).mono ?_
  rintro condition d₁ ⟨u, hu, htu⟩
  refine (Directive.sound_readAll false d₁).mono ?_
  rintro directives d₂ ⟨v, hv, htv⟩
  refine (SelectionSet.sound_readBodyOf h hne d₂).mono ?_
  rintro selections d ⟨w, ⟨hw, hitems⟩, htw⟩
  exact ⟨_, .intro ⟨condition, directives, selections, _⟩ hu hv hw hitems,
    htu.append (htv.append htw)⟩

theorem InlineFragment.ends_readOf (h : Complete selection G fun _ => Selection.bars)
    (hs : Starts G Selection.Begins) {c d e : Cursor} {b : Bool} {ws : Phrase}
    {f : InlineFragment} (he : eat (.punctuator .ellipsis) c = .ok (b, e))
    (hg : InlineFragmentOf.Derives G (.mark .ellipsis :: ws) f) (ht : e.Takes ws d)
    (hd : d.Clear Selection.bars) :
    Ends (InlineFragment.readOf selection) c fun f' d' => d' = d ∧ bare f' = bare f := by
  cases hg with
  | @intro u v w _ hu hv hw hitems =>
    obtain ⟨d₁, htu, htvw⟩ := Cursor.takes_append.mp ht
    obtain ⟨d₂, htv, htw⟩ := Cursor.takes_append.mp htvw
    have hd₂ : d₂.Clear [.punctuator .atSign, .punctuator .openParen, .name "on"] :=
      hw.clear_of_ne_nil hitems htw (by simp)
    have hd₁ : d₁.Clear [.name "on"] :=
      Directive.clear_of_all hv htv (by simp) (hd₂.mono (by simp))
    rw [InlineFragment.readOf, ends_located, ends_bind_of_ok he]
    simp only [ends_bind, ends_pure]
    refine (TypeName.complete_read.behind _ u _ e d₁ hu htu hd₁).mono ?_
    rintro condition _ ⟨rfl, h₁⟩
    refine (Directive.complete_readAll false v _ _ d₂ hv htv (hd₂.mono (by simp))).mono ?_
    rintro directives _ ⟨rfl, h₂⟩
    refine (SelectionSet.complete_readBodyOf h hs w _ _ d ⟨hw, hitems⟩ htw
      (Cursor.clear_nil d)).mono ?_
    rintro selections _ ⟨rfl, h₃⟩
    refine ⟨rfl, ?_⟩
    change InlineFragmentOf.mk (bare condition) (bare directives) (bare selections) Span.zero =
      InlineFragmentOf.mk (bare f.typeCondition) (bare f.directives) (bare f.selections) Span.zero
    rw [h₁, h₂, h₃]

end Parts

namespace Selection

theorem starts : Starts Derives Begins := by
  intro ws s hg
  cases hg with
  | @field _ f hf =>
    cases hf with
    | intro _ hlabel =>
      obtain ⟨aliasName, name, arguments, directives, selections, span⟩ := f
      cases hlabel with
      | absent => exact ⟨_, _, rfl, .inl ⟨_, rfl⟩⟩
      | present a => exact ⟨_, _, rfl, .inl ⟨_, rfl⟩⟩
  | spread hs => cases hs; exact ⟨_, _, rfl, .inr rfl⟩
  | inline hf => cases hf; exact ⟨_, _, rfl, .inr rfl⟩

theorem eat_of_next {c : Cursor} {t : Token} (h : c.next? = some t) :
    eat t c = .ok (true, c.advance) := by
  rw [eat, if_pos h]

theorem eat_of_ne {c : Cursor} {t : Token} (h : c.next? ≠ some t) : eat t c = .ok (false, c) := by
  rw [eat, if_neg h]

theorem sound_readFragmentOf {selection : Reader Selection} (h : Sound selection Derives)
    {c : Cursor} (hc : c.next? = some (.punctuator .ellipsis)) :
    Always (readFragmentOf selection) c fun s d => ∃ ws, Derives ws s ∧ c.Takes ws d := by
  have hinline : c.advance.next? ≠ some (.punctuator .ellipsis) →
      Always (InlineFragment.readOf selection) c.advance fun f d => ∀ span,
        ∃ ws, Derives ws (.inline { f with span }) ∧ c.Takes ws d := by
    intro hne
    refine (InlineFragment.sound_readOf h (fun _ _ => starts.ne_nil) (eat_of_ne hne)).mono ?_
    rintro f d ⟨ws, hg, ht⟩ span
    cases hg with
    | intro _ hu hv hw hitems =>
      exact ⟨_, .inline (.intro { f with span } hu hv hw hitems), hc, ht⟩
  have hspread : c.advance.next? ≠ some (.punctuator .ellipsis) →
      Always FragmentSpread.read c.advance fun s d => ∀ span,
        ∃ ws, Derives ws (.spread { s with span }) ∧ c.Takes ws d := by
    intro hne
    refine (FragmentSpread.sound_read (eat_of_ne hne)).mono ?_
    rintro s d ⟨ws, hg, ht⟩ span
    cases hg with
    | intro _ hname hv => exact ⟨_, .spread (.intro { s with span } hname hv), hc, ht⟩
  simp only [readFragmentOf, always_located, always_bind, always_skip, always_peek]
  split
  · next hn =>
    simp only [always_bind, always_pure]
    exact (hinline (by simp [hn])).mono fun f d hf => hf _
  · next hn =>
    simp only [always_bind, always_pure]
    exact (hinline (by simp [hn])).mono fun f d hf => hf _
  · next hn =>
    simp only [always_bind, always_pure]
    exact (hinline (by simp [hn])).mono fun f d hf => hf _
  · next hn =>
    simp only [always_bind, always_pure]
    exact (hspread (by simp [hn])).mono fun s d hs => hs _
  · exact always_fail

theorem sound_readTo (depth : Nat) : Sound (readTo depth) Derives := by
  induction depth with
  | zero =>
    intro c
    exact always_fail
  | succ depth ih =>
    intro c
    rw [readTo, always_bind, always_peek]
    split
    · exact (Field.sound_readOf ih fun _ _ => starts.ne_nil).map (fun ws f hf => .field hf) c
    · next hc => exact sound_readFragmentOf ih hc
    · exact always_fail

abbrev DerivesWithin (depth : Nat) (ws : Phrase) (s : Selection) : Prop :=
  Derives ws s ∧ ws.length ≤ depth

theorem starts_within (depth : Nat) : Starts (DerivesWithin depth) Begins :=
  fun ws s hg => starts ws s hg.1

/-- The selections in braces are less deep than the braces are long. -/
theorem within_of_enclosed {depth : Nat} {w : Phrase} {ss : List Selection}
    (h : Enclosed .openBrace .closeBrace Derives w ss) (hlen : w.length ≤ depth + 1) :
    Enclosed .openBrace .closeBrace (DerivesWithin depth) w ss := by
  cases h with
  | absent => exact .absent
  | present hm hne =>
    refine .present (hm.mono fun u s _ hu hle => ⟨hu, ?_⟩) hne
    simp only [List.length_cons, List.length_append] at hlen
    omega

theorem within_of_field {depth : Nat} {ws : Phrase} {f : Field}
    (h : FieldOf.Derives Derives ws f) (hlen : ws.length ≤ depth + 1) :
    FieldOf.Derives (DerivesWithin depth) ws f := by
  cases h with
  | intro _ hlabel hu hv hw =>
    refine .intro f hlabel hu hv (within_of_enclosed hw ?_)
    simp only [List.length_cons, List.length_append] at hlen
    omega

theorem within_of_inline {depth : Nat} {ws : Phrase} {f : InlineFragment}
    (h : InlineFragmentOf.Derives Derives ws f) (hlen : ws.length ≤ depth + 1) :
    InlineFragmentOf.Derives (DerivesWithin depth) ws f := by
  cases h with
  | intro _ hu hv hw hitems =>
    refine .intro f hu hv (within_of_enclosed hw ?_) hitems
    simp only [List.length_cons, List.length_append] at hlen
    omega

section Fragments

variable {selection : Reader Selection} {G : Phrase → Selection → Prop} {ws : Phrase}
  {c d : Cursor}

/-- Behind its ellipsis, an inline fragment goes on with a directive, a brace or a condition. -/
theorem next_of_inline {f : InlineFragment}
    (hg : InlineFragmentOf.Derives G (.mark .ellipsis :: ws) f) (ht : c.Takes ws d) :
    c.next? = some (.punctuator .atSign) ∨ c.next? = some (.punctuator .openBrace) ∨
      c.next? = some (.name "on") := by
  obtain ⟨condition, directives, ⟨items, p⟩, span⟩ := f
  cases hg with
  | intro _ hu hv hw hitems =>
    obtain ⟨d₁, htu, htvw⟩ := Cursor.takes_append.mp ht
    cases hu with
    | present _ => exact .inr (.inr htu.1)
    | absent =>
      obtain rfl := htu
      obtain ⟨d₂, htv, htw⟩ := Cursor.takes_append.mp htvw
      cases hv with
      | nil =>
        obtain rfl := htv
        cases hw with
        | absent => exact absurd rfl hitems
        | present => exact .inr (.inl htw.1)
      | cons hdir _ =>
        obtain ⟨d₃, htd, _⟩ := Cursor.takes_append.mp htv
        obtain ⟨t, hn, rfl⟩ := (Directive.starts false).next? hdir htd
        exact .inl hn

theorem ends_readSpread {s : FragmentSpread}
    (hg : FragmentSpread.Derives (.mark .ellipsis :: ws) s)
    (ht : c.Takes (.mark .ellipsis :: ws) d) (hd : d.Clear bars) :
    Ends (readFragmentOf selection) c fun b e => e = d ∧ bare b = bare (spread s) := by
  have hname : c.advance.next? = some (.name s.name.name) ∧ s.name.name ≠ "on" := by
    cases hg with
    | intro _ hname _ => exact ⟨ht.2.1, hname⟩
  have hread := FragmentSpread.ends_read (eat_of_ne (by simp [hname.1])) hg ht.2 hd
  simp only [readFragmentOf, ends_located, ends_bind, ends_skip, ends_peek]
  rw [hname.1]
  -- The name does not begin a condition.
  split
  · next h => simp at h
  · next h => simp at h
  · next h => simp_all
  · simp only [ends_bind, ends_pure]
    exact hread.mono fun s' e h => ⟨h.1, congrArg Selection.spread h.2⟩
  · next h => simp_all

theorem ends_readInline (h : Complete selection G fun _ => bars) (hs : Starts G Begins)
    {f : InlineFragment} (hg : InlineFragmentOf.Derives G (.mark .ellipsis :: ws) f)
    (ht : c.Takes (.mark .ellipsis :: ws) d) (hd : d.Clear bars) :
    Ends (readFragmentOf selection) c fun b e => e = d ∧ bare b = bare (inline f) := by
  have hnext := next_of_inline hg ht.2
  have hne : c.advance.next? ≠ some (.punctuator .ellipsis) := by
    rcases hnext with hn | hn | hn <;> simp [hn]
  have hread := InlineFragment.ends_readOf h hs (eat_of_ne hne) hg ht.2 hd
  have hdone : ∀ f' : InlineFragment, bare f' = bare f → ∀ span,
      bare (Selection.inline { f' with span }) = bare (Selection.inline f) := by
    intro f' h span
    change reshape _ (Selection.inline _) = reshape _ (Selection.inline f)
    rw [reshape_inline, reshape_inline]
    exact congrArg Selection.inline h
  simp only [readFragmentOf, ends_located, ends_bind, ends_skip, ends_peek]
  rcases hnext with hn | hn | hn <;> rw [hn] <;> simp only [ends_bind, ends_pure] <;>
    exact hread.mono fun f' e h => ⟨h.1, hdone f' h.2 _⟩

end Fragments

theorem complete_readTo (depth : Nat) :
    Complete (readTo depth) (DerivesWithin depth) fun _ => bars := by
  induction depth with
  | zero =>
    rintro ws s c d ⟨hg, hlen⟩ _ _
    exact absurd (List.length_eq_zero_iff.mp (Nat.le_zero.mp hlen)) (starts.ne_nil hg)
  | succ depth ih =>
    rintro ws s c d ⟨hg, hlen⟩ ht hd
    rw [readTo, ends_bind, ends_peek]
    cases hg with
    | @field _ f hf =>
      have hread := Field.complete_readOf ih (starts_within depth) ws f c d
        (within_of_field hf hlen) ht hd
      have hmap : Ends (Selection.field <$> Field.readOf (readTo depth)) c
          fun b e => e = d ∧ bare b = bare (Selection.field f) := by
        refine hread.map fun f' h => ?_
        change reshape _ (Selection.field f') = reshape _ (Selection.field f)
        rw [reshape_field, reshape_field]
        exact congrArg Selection.field h
      obtain ⟨name, hname⟩ : ∃ name, c.next? = some (.name name) := by
        obtain ⟨aliasName, name, arguments, directives, selections, span⟩ := f
        cases hf with
        | intro _ hlabel => cases hlabel <;> exact ⟨_, ht.1⟩
      rw [hname]
      exact hmap
    | @spread _ s hs =>
      cases hs with
      | intro _ hname hv =>
        rw [ht.1]
        exact ends_readSpread (.intro s hname hv) ht hd
    | @inline _ f hf =>
      have hwithin := within_of_inline hf hlen
      cases hf with
      | intro =>
        rw [ht.1]
        exact ends_readInline ih (starts_within depth) hwithin ht hd

theorem sound_read : Sound read Derives := by
  intro c
  rw [read, always_nested]
  exact sound_readTo (c.tokens.length + 1) c

theorem complete_read : Complete read Derives fun _ => bars := by
  intro ws s c d hg ht hd
  have hlen := ht.length
  rw [read, ends_nested]
  exact complete_readTo (c.tokens.length + 1) ws s c d ⟨hg, by omega⟩ ht hd

end Selection

theorem SelectionSet.sound_read : Sound SelectionSet.read SelectionSet.Derives :=
  SelectionSet.sound_readOf Selection.sound_read fun _ _ => Selection.starts.ne_nil

theorem SelectionSet.complete_read :
    Complete SelectionSet.read SelectionSet.Derives
      fun s => if s.items.isEmpty then [.punctuator .openBrace] else [] :=
  SelectionSet.complete_readOf Selection.complete_read Selection.starts

theorem Field.complete_read :
    Complete Field.read (FieldOf.Derives Selection.Derives) fun _ => Selection.bars :=
  Field.complete_readOf Selection.complete_read Selection.starts

theorem FragmentSpread.complete_read :
    Complete FragmentSpread.read FragmentSpread.Derives fun _ => Selection.bars := by
  intro ws s c d hg ht hd
  cases hg with
  | intro _ hname hv =>
    exact FragmentSpread.ends_read (Selection.eat_of_next ht.1) (.intro s hname hv) ht.2 hd

theorem InlineFragment.complete_read :
    Complete InlineFragment.read (InlineFragmentOf.Derives Selection.Derives)
      fun _ => Selection.bars := by
  intro ws f c d hg ht hd
  cases hg with
  | intro _ hu hv hw hitems =>
    exact InlineFragment.ends_readOf Selection.complete_read Selection.starts
      (Selection.eat_of_next ht.1) (.intro f hu hv hw hitems) ht.2 hd

end GraphQLText
