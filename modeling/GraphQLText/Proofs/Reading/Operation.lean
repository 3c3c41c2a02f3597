import GraphQLText.Operation.Reader
import GraphQLText.Proofs.Reading.Selection

/-!
# Reading operations takes their phrases

The readers of operations, of their variables and of fragments are sound and complete for their
grammars.
-/

namespace GraphQLText

set_option autoImplicit false

open Reader

namespace VariableDefinition

def bars : List Token :=
  [.punctuator .bang, .punctuator .equals, .punctuator .atSign, .punctuator .openParen]

theorem starts : Starts Derives (· = .punctuator .dollar) := by
  rintro ws ⟨⟩ hg
  cases hg with
  | intro _ hu => cases hu; exact ⟨_, _, rfl, rfl⟩

theorem sound_read : Sound read Derives := by
  intro c
  simp only [read, always_located, always_bind, always_expect, always_pure]
  refine (Variable.sound_read c).mono ?_
  rintro var d₁ ⟨u, hu, htu⟩ hc
  refine (TypeRef.sound_read d₁.advance).mono ?_
  rintro type d₂ ⟨t, ht, htt⟩
  refine (Value.sound_readDefault d₂).mono ?_
  rintro default d₃ ⟨v, hv, htv⟩
  refine (Directive.sound_readAll true d₃).mono ?_
  rintro directives d ⟨w, hw, htw⟩
  exact ⟨_, .intro ⟨var, type, default, directives, _⟩ hu ht hv hw,
    htu.append ⟨hc, htt.append (htv.append htw)⟩⟩

theorem complete_read : Complete read Derives fun _ => bars := by
  intro ws node c d hg ht hd
  cases hg with
  | @intro u t v w _ hu htype hv hw =>
    obtain ⟨d₁, htu, hc, htr⟩ := Cursor.takes_append.mp ht
    obtain ⟨d₂, htt, htvw⟩ := Cursor.takes_append.mp htr
    obtain ⟨d₃, htv, htw⟩ := Cursor.takes_append.mp htvw
    have hd₃ : d₃.Clear [.punctuator .bang, .punctuator .equals] :=
      Directive.clear_of_all hw htw (by simp) (hd.mono (by simp [bars]))
    have hd₂ : d₂.Clear [.punctuator .bang] := hv.clear htv (by simp) (hd₃.mono (by simp))
    simp only [read, ends_located, ends_bind, ends_expect, ends_pure]
    refine (Variable.complete_read u node.var c d₁ hu htu (Cursor.clear_nil _)).mono ?_
    rintro var _ ⟨rfl, h₁⟩
    refine ⟨hc, (TypeRef.complete_read t node.type _ d₂ htype htt hd₂).mono ?_⟩
    rintro type _ ⟨rfl, h₂⟩
    refine (Value.complete_readDefault v _ _ d₃ hv htv (hd₃.mono (by simp))).mono ?_
    rintro default _ ⟨rfl, h₃⟩
    refine (Directive.complete_readAll true w _ _ d hw htw (hd.mono (by simp [bars]))).mono ?_
    rintro directives _ ⟨rfl, h₄⟩
    refine ⟨rfl, ?_⟩
    change VariableDefinition.mk (bare var) (bare type) (bare default) (bare directives) Span.zero =
      VariableDefinition.mk (bare node.var) (bare node.type) (bare node.default)
        (bare node.directives) Span.zero
    rw [h₁, h₂, h₃, h₄]

theorem sound_readAll : Sound readAll (Enclosed .openParen .closeParen Derives) :=
  sound_read.enclosed (fun _ _ => starts.ne_nil) _ _

theorem complete_readAll :
    Complete readAll (Enclosed .openParen .closeParen Derives)
      fun _ => [.punctuator .openParen] := by
  have hread : Complete readAll (Enclosed .openParen .closeParen Derives) _ :=
    complete_read.enclosed starts (by simp) (by simp [bars]) (by simp [bars])
  refine hread.mono fun ds t ht => ?_
  split at ht
  · exact ht
  · exact absurd ht (by simp)

end VariableDefinition

namespace OperationKind

theorem sound_read : Sound read fun ws kind => ws = [.name kind.keyword] := by
  intro c
  simp only [read, always_token]
  intro t kind hn hk
  split at hk
  · obtain rfl := ofKeyword?_eq_some_iff.mp hk
    exact ⟨_, rfl, hn, rfl⟩
  · exact absurd hk (by simp)

theorem complete_read : Complete read (fun ws kind => ws = [.name kind.keyword]) fun _ => [] := by
  rintro ws kind c d rfl ht _
  simp only [read, ends_token]
  exact ⟨_, kind, ht.1, ofKeyword?_eq_some_iff.mpr rfl, ht.2.symm, rfl⟩

end OperationKind

namespace OperationDefinition

theorem sound_readName : Sound readName? (Perhaps TypeName.Derives) := by
  intro c
  rw [readName?, always_bind, always_peek]
  split
  · rw [always_map]
    refine (TypeName.sound_read c).mono ?_
    rintro n d ⟨u, hu, ht⟩
    exact ⟨u, .present hu, ht⟩
  · exact always_pure.mpr ⟨[], .absent, rfl⟩

theorem complete_readName {ws : Phrase} {n : Option TypeName} {c d : Cursor}
    (hg : Perhaps TypeName.Derives ws n) (ht : c.Takes ws d)
    (hd : ∀ s, d.next? ≠ some (.name s)) :
    Ends readName? c fun n' e => e = d ∧ bare n' = bare n := by
  rw [readName?, ends_bind, ends_peek]
  cases hg with
  | absent =>
    obtain rfl := ht
    split
    · next s hn => exact absurd hn (hd s)
    · exact ends_pure.mpr ⟨rfl, rfl⟩
  | @present _ n hn =>
    have hmap : Ends (some <$> TypeName.read) c fun n' e => e = d ∧ bare n' = bare (some n) :=
      (TypeName.complete_read ws n c d hn ht (Cursor.clear_nil d)).map fun _ h => congrArg some h
    cases hn
    rw [ht.1]
    exact hmap

theorem sound_read : Sound read Derives := by
  intro c
  simp only [read, always_bind, always_at?, always_ite]
  refine ⟨fun hn => ?_, fun _ => ?_⟩
  · simp only [readShorthand, always_located, always_bind, always_pure]
    have hitems : Always SelectionSet.read c fun s _ => s.items ≠ [] := by
      simp only [SelectionSet.read, SelectionSet.readOf, always_bind, always_at?, always_ite,
        always_located, always_pure]
      exact ⟨fun _ => always_enclosed_ne_nil (by simpa using hn), fun h => absurd hn h⟩
    refine ((SelectionSet.sound_read c).and hitems).mono ?_
    rintro selections d ⟨⟨w, hw, ht⟩, hne⟩
    exact ⟨w, .shorthand _ rfl hw hne, ht⟩
  · simp only [readLong, always_located, always_bind, always_relabel, always_pure]
    refine (OperationKind.sound_read c).mono ?_
    rintro kind d₁ ⟨k, rfl, hkey, rfl⟩
    refine (sound_readName _).mono ?_
    rintro name d₂ ⟨n, hn, htn⟩
    refine (VariableDefinition.sound_readAll d₂).mono ?_
    rintro vars d₃ ⟨u, hu, htu⟩
    refine (Directive.sound_readAll false d₃).mono ?_
    rintro directives d₄ ⟨v, hv, htv⟩
    refine (SelectionSet.sound_readBodyOf Selection.sound_read
      (fun _ _ => Selection.starts.ne_nil) d₄).mono ?_
    rintro selections d ⟨w, ⟨hw, hitems⟩, htw⟩
    exact ⟨_, .long ⟨kind, name, vars, directives, selections, _⟩ hn hu hv hw hitems
      (isShorthand_iff_isBraced hn hu hv hw hitems), hkey,
      htn.append (htu.append (htv.append htw))⟩

theorem complete_read : Complete read Derives fun _ => [] := by
  intro ws node c d hg ht hd
  simp only [read, ends_bind, ends_at?, ends_ite]
  cases hg with
  | shorthand _ hshort hw hitems =>
    obtain ⟨kind, name, vars, directives, ⟨items, p⟩, span⟩ := node
    obtain ⟨rfl, rfl, rfl, rfl⟩ := parts_of_isShorthand hshort
    have hread := SelectionSet.complete_read ws ⟨items, p⟩ c d hw ht (hd.mono (by simp_all))
    refine ⟨fun _ => ?_, fun hn => ?_⟩
    · simp only [readShorthand, ends_located, ends_bind, ends_pure]
      refine hread.mono ?_
      rintro selections e ⟨rfl, hshape⟩
      refine ⟨rfl, ?_⟩
      change OperationDefinition.mk .query none [] [] (bare selections) Span.zero =
        OperationDefinition.mk .query none [] [] (bare ⟨items, p⟩) Span.zero
      rw [hshape]
    · cases hw with
      | absent => exact absurd rfl hitems
      | present => exact absurd (by simp [ht.1]) hn
  | @long n u v w _ _ hn hu hv hw hitems =>
    obtain ⟨d₂, htn, htr⟩ := Cursor.takes_append.mp ht.2
    obtain ⟨d₃, htu, htvw⟩ := Cursor.takes_append.mp htr
    obtain ⟨d₄, htv, htw⟩ := Cursor.takes_append.mp htvw
    have hd₄ : ∀ bars : List Token, .punctuator .openBrace ∉ bars → d₄.Clear bars :=
      fun bars hb => hw.clear_of_ne_nil hitems htw hb
    have hd₃ : d₃.Clear [.punctuator .openParen] :=
      Directive.clear_of_all hv htv (by simp) (hd₄ _ (by simp))
    -- what follows the name begins with a parenthesis, an at sign or a brace, so no name is made up
    have hname : ∀ s, d₂.next? ≠ some (.name s) := by
      intro s
      have hclear : d₂.Clear [.name s] :=
        hu.clear htu (by simp) (Directive.clear_of_all hv htv (by simp) (hd₄ _ (by simp)))
      exact hclear _ (by simp)
    refine ⟨fun h => absurd h (by simp [ht.1]), fun _ => ?_⟩
    simp only [readLong, ends_located, ends_bind, ends_relabel, ends_pure]
    refine (OperationKind.complete_read _ node.kind c _ rfl ⟨ht.1, rfl⟩ (Cursor.clear_nil _)).mono ?_
    rintro kind _ ⟨rfl, hkind⟩
    obtain rfl : kind = node.kind := hkind
    refine (complete_readName hn htn hname).mono ?_
    rintro name _ ⟨rfl, h₁⟩
    refine (VariableDefinition.complete_readAll u _ _ d₃ hu htu hd₃).mono ?_
    rintro vars _ ⟨rfl, h₂⟩
    refine (Directive.complete_readAll false v _ _ d₄ hv htv (hd₄ _ (by simp))).mono ?_
    rintro directives _ ⟨rfl, h₃⟩
    refine (SelectionSet.complete_readBodyOf Selection.complete_read Selection.starts w _ _ d
      ⟨hw, hitems⟩ htw (Cursor.clear_nil d)).mono ?_
    rintro selections _ ⟨rfl, h₄⟩
    refine ⟨rfl, ?_⟩
    change OperationDefinition.mk node.kind (bare name) (bare vars) (bare directives)
        (bare selections) Span.zero =
      OperationDefinition.mk node.kind (bare node.name) (bare node.variableDefinitions)
        (bare node.directives) (bare node.selections) Span.zero
    rw [h₁, h₂, h₃, h₄]

end OperationDefinition

namespace FragmentDefinition

theorem sound_read : Sound read Derives := by
  intro c
  simp only [read, always_located, always_bind, always_expect, always_at?, always_ite, always_pure]
  intro hkey
  refine ⟨fun _ => always_fail, fun hon => ?_⟩
  refine (TypeName.sound_read c.advance).mono ?_
  rintro name d₁ ⟨u, hu, htu⟩ hon'
  cases hu
  obtain ⟨hname, rfl⟩ := htu
  refine (TypeName.sound_read _).mono ?_
  rintro condition d₂ ⟨t, ht, htt⟩
  cases ht
  obtain ⟨hcond, rfl⟩ := htt
  refine (Directive.sound_readAll false _).mono ?_
  rintro directives d₃ ⟨v, hv, htv⟩
  refine (SelectionSet.sound_readBodyOf Selection.sound_read
    (fun _ _ => Selection.starts.ne_nil) d₃).mono ?_
  rintro selections d ⟨w, ⟨hw, hitems⟩, htw⟩
  refine ⟨_, .intro ⟨name, condition, directives, selections, _⟩ ?_ hv hw hitems, hkey, hname,
    hon', hcond, htv.append htw⟩
  intro (heq : name.name = "on")
  rw [hname] at hon
  exact hon (by simp [heq])

theorem complete_read : Complete read Derives fun _ => [] := by
  intro ws node c d hg ht hd
  cases hg with
  | @intro v w _ hne hv hw hitems =>
    obtain ⟨hkey, hname, hon, hcond, htr⟩ := ht
    obtain ⟨d₃, htv, htw⟩ := Cursor.takes_append.mp htr
    simp only [read, ends_located, ends_bind, ends_expect, ends_at?, ends_ite, ends_pure]
    refine ⟨hkey, fun h => absurd (by simpa [hname] using h) hne, fun _ => ?_⟩
    refine (TypeName.complete_read _ node.name _ _ (.intro _) ⟨hname, rfl⟩
      (Cursor.clear_nil _)).mono ?_
    rintro name _ ⟨rfl, h₁⟩
    refine ⟨hon, (TypeName.complete_read _ node.typeCondition _ _ (.intro _) ⟨hcond, rfl⟩
      (Cursor.clear_nil _)).mono ?_⟩
    rintro condition _ ⟨rfl, h₂⟩
    refine (Directive.complete_readAll false v _ _ d₃ hv htv
      (hw.clear_of_ne_nil hitems htw (by simp))).mono ?_
    rintro directives _ ⟨rfl, h₃⟩
    refine (SelectionSet.complete_readBodyOf Selection.complete_read Selection.starts w _ _ d
      ⟨hw, hitems⟩ htw (Cursor.clear_nil d)).mono ?_
    rintro selections _ ⟨rfl, h₄⟩
    refine ⟨rfl, ?_⟩
    change FragmentDefinition.mk (bare name) (bare condition) (bare directives) (bare selections)
        Span.zero =
      FragmentDefinition.mk (bare node.name) (bare node.typeCondition) (bare node.directives)
        (bare node.selections) Span.zero
    rw [h₁, h₂, h₃, h₄]

end FragmentDefinition

end GraphQLText
