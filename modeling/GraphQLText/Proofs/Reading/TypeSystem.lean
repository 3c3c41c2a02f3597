import GraphQLText.Proofs.Grammar.TypeSystem
import GraphQLText.Proofs.Reading.Operation
import GraphQLText.TypeSystem.Reader

/-!
# Reading the type system takes its phrases

The readers of the parts of a schema are sound and complete for their grammars. A definition that
has no body in braces was not read before an opening brace.
-/

namespace GraphQLText

set_option autoImplicit false

open Reader

namespace StringValue

def BeginsDescribed (t : Token) : Prop :=
  (∃ s, t = .name s) ∨ (∃ v, t = .string v) ∨ ∃ v, t = .blockString v

theorem begins_of_description {u rest : Phrase} {name : String} {s : Option StringValue}
    (h : DerivesDescription u s) :
    ∃ w more, u ++ .name name :: rest = w :: more ∧ BeginsDescribed w.token := by
  cases h with
  | absent => exact ⟨_, _, rfl, .inl ⟨_, rfl⟩⟩
  | present hs =>
    cases hs with
    | quoted => exact ⟨_, _, rfl, .inr (.inl ⟨_, rfl⟩)⟩
    | block => exact ⟨_, _, rfl, .inr (.inr ⟨_, rfl⟩)⟩

theorem sound_readDescription : Sound readDescription? DerivesDescription := by
  intro c
  have hread : Always (some <$> StringValue.read) c fun s d =>
      ∃ ws, DerivesDescription ws s ∧ c.Takes ws d := by
    rw [always_map]
    refine (StringValue.sound_read c).mono ?_
    rintro s d ⟨u, hu, ht⟩
    exact ⟨u, .present hu, ht⟩
  rw [readDescription?, always_bind, always_peek]
  split
  · exact hread
  · exact hread
  · exact always_pure.mpr ⟨[], .absent, rfl⟩

/-- A description is taken if the name of what it describes follows. -/
theorem complete_readDescription {ws : Phrase} {s : Option StringValue} {c d : Cursor}
    {name : String} (hg : DerivesDescription ws s) (ht : c.Takes ws d)
    (hd : d.next? = some (.name name)) :
    Ends readDescription? c fun s' e => e = d ∧ bare s' = bare s := by
  rw [readDescription?, ends_bind, ends_peek]
  cases hg with
  | absent =>
    obtain rfl := ht
    rw [hd]
    exact ends_pure.mpr ⟨rfl, rfl⟩
  | @present _ s hs =>
    have hmap : Ends (some <$> StringValue.read) c fun s' e => e = d ∧ bare s' = bare (some s) :=
      (StringValue.complete_read ws s c d hs ht (Cursor.clear_nil d)).map fun _ h =>
        congrArg some h
    cases hs <;> rw [ht.1] <;> exact hmap

end StringValue

namespace InputValueDefinition

/-- The tokens that could go on with the definition of an input value. -/
def bars : List Token :=
  [.punctuator .bang, .punctuator .equals, .punctuator .atSign, .punctuator .openParen]

theorem starts : Starts Derives StringValue.BeginsDescribed := by
  intro ws d hg
  cases hg with
  | intro _ hu => exact StringValue.begins_of_description hu

theorem sound_read : Sound read Derives := by
  intro c
  simp only [read, always_located, always_bind, always_expect, always_nameToken, always_pure]
  refine (StringValue.sound_readDescription c).mono ?_
  rintro description d₁ ⟨u, hu, htu⟩ name hn hc
  refine (TypeRef.sound_read _).mono ?_
  rintro type d₂ ⟨t, ht, htt⟩
  refine (Value.sound_readDefault d₂).mono ?_
  rintro default d₃ ⟨v, hv, htv⟩
  refine (Directive.sound_readAll true d₃).mono ?_
  rintro directives d ⟨w, hw, htw⟩
  exact ⟨_, .intro ⟨description, name, type, default, directives, _⟩ hu ht hv hw,
    htu.append ⟨hn, hc, htt.append (htv.append htw)⟩⟩

theorem complete_read : Complete read Derives fun _ => bars := by
  intro ws node c d hg ht hd
  cases hg with
  | @intro u t v w _ hu htype hv hw =>
    obtain ⟨d₁, htu, hn, hc, htr⟩ := Cursor.takes_append.mp ht
    obtain ⟨d₂, htt, htvw⟩ := Cursor.takes_append.mp htr
    obtain ⟨d₃, htv, htw⟩ := Cursor.takes_append.mp htvw
    have hd₃ : d₃.Clear [.punctuator .bang, .punctuator .equals] :=
      Directive.clear_of_all hw htw (by simp) (hd.mono (by simp [bars]))
    have hd₂ : d₂.Clear [.punctuator .bang] := hv.clear htv (by simp) (hd₃.mono (by simp))
    simp only [read, ends_located, ends_bind, ends_expect, ends_nameToken, ends_pure]
    refine (StringValue.complete_readDescription hu htu hn).mono ?_
    rintro description _ ⟨rfl, h₁⟩
    refine ⟨node.name, hn, hc, (TypeRef.complete_read t node.type _ d₂ htype htt hd₂).mono ?_⟩
    rintro type _ ⟨rfl, h₂⟩
    refine (Value.complete_readDefault v _ _ d₃ hv htv (hd₃.mono (by simp))).mono ?_
    rintro default _ ⟨rfl, h₃⟩
    refine (Directive.complete_readAll true w _ _ d hw htw (hd.mono (by simp [bars]))).mono ?_
    rintro directives _ ⟨rfl, h₄⟩
    refine ⟨rfl, ?_⟩
    change InputValueDefinition.mk (bare description) node.name (bare type) (bare default)
        (bare directives) Span.zero =
      InputValueDefinition.mk (bare node.description) node.name (bare node.type)
        (bare node.default) (bare node.directives) Span.zero
    rw [h₁, h₂, h₃, h₄]

theorem sound_readArguments : Sound readArguments DerivesAll :=
  sound_read.enclosed (fun _ _ => starts.ne_nil) _ _

theorem complete_readArguments :
    Complete readArguments DerivesAll fun _ => [.punctuator .openParen] := by
  have hread : Complete readArguments DerivesAll _ :=
    complete_read.enclosed starts (by simp [StringValue.BeginsDescribed]) (by simp [bars])
      (by rintro _ _ (⟨_, rfl⟩ | ⟨_, rfl⟩ | ⟨_, rfl⟩) <;> simp [bars])
  refine hread.mono fun ds t ht => ?_
  split at ht
  · exact ht
  · exact absurd ht (by simp)

theorem sound_readFields : Sound readFields (Enclosed .openBrace .closeBrace Derives) :=
  sound_read.enclosed (fun _ _ => starts.ne_nil) _ _

theorem complete_readFields :
    Complete readFields (Enclosed .openBrace .closeBrace Derives)
      fun ds => if ds.isEmpty then [.punctuator .openBrace] else [] :=
  complete_read.enclosed starts (by simp [StringValue.BeginsDescribed]) (by simp [bars])
    (by rintro _ _ (⟨_, rfl⟩ | ⟨_, rfl⟩ | ⟨_, rfl⟩) <;> simp [bars])

end InputValueDefinition

namespace FieldDefinition

def bars : List Token :=
  [.punctuator .bang, .punctuator .atSign, .punctuator .openParen]

theorem starts : Starts Derives StringValue.BeginsDescribed := by
  intro ws d hg
  cases hg with
  | intro _ hu => exact StringValue.begins_of_description hu

theorem sound_read : Sound (read true) Derives := by
  intro c
  simp only [read, always_located, always_bind, always_expect, always_nameToken, always_pure]
  refine (StringValue.sound_readDescription c).mono ?_
  rintro description d₁ ⟨u, hu, htu⟩ name hn
  refine (InputValueDefinition.sound_readArguments _).mono ?_
  rintro arguments d₂ ⟨v, hv, htv⟩ hc
  refine (TypeRef.sound_read _).mono ?_
  rintro type d₃ ⟨t, ht, htt⟩
  refine (Directive.sound_readAll true d₃).mono ?_
  rintro directives d ⟨w, hw, htw⟩
  exact ⟨_, .intro ⟨description, name, arguments, type, directives, _⟩ hu hv ht hw,
    htu.append ⟨hn, htv.append ⟨hc, htt.append htw⟩⟩⟩

theorem complete_read (constant : Bool) : Complete (read constant) Derives fun _ => bars := by
  intro ws node c d hg ht hd
  cases hg with
  | @intro u v t w _ hu hv htype hw =>
    obtain ⟨d₁, htu, hn, htr⟩ := Cursor.takes_append.mp ht
    obtain ⟨d₂, htv, hc, htr⟩ := Cursor.takes_append.mp htr
    obtain ⟨d₃, htt, htw⟩ := Cursor.takes_append.mp htr
    have hd₃ : d₃.Clear [.punctuator .bang] :=
      Directive.clear_of_all hw htw (by simp) (hd.mono (by simp [bars]))
    simp only [read, ends_located, ends_bind, ends_expect, ends_nameToken, ends_pure]
    refine (StringValue.complete_readDescription hu htu hn).mono ?_
    rintro description _ ⟨rfl, h₁⟩
    refine ⟨node.name, hn, (InputValueDefinition.complete_readArguments v _ _ d₂ hv htv
      (Cursor.clear_of_next hc (by simp))).mono ?_⟩
    rintro arguments _ ⟨rfl, h₂⟩
    refine ⟨hc, (TypeRef.complete_read t node.type _ d₃ htype htt hd₃).mono ?_⟩
    rintro type _ ⟨rfl, h₃⟩
    refine (Directive.complete_readAll constant w _ _ d (hw.relax constant) htw
      (hd.mono (by simp [bars]))).mono ?_
    rintro directives _ ⟨rfl, h₄⟩
    refine ⟨rfl, ?_⟩
    change FieldDefinition.mk (bare description) node.name (bare arguments) (bare type)
        (bare directives) Span.zero =
      FieldDefinition.mk (bare node.description) node.name (bare node.arguments)
        (bare node.type) (bare node.directives) Span.zero
    rw [h₁, h₂, h₃, h₄]

theorem sound_readAll : Sound (readAll true) (Enclosed .openBrace .closeBrace Derives) :=
  sound_read.enclosed (fun _ _ => starts.ne_nil) _ _

theorem complete_readAll (constant : Bool) :
    Complete (readAll constant) (Enclosed .openBrace .closeBrace Derives)
      fun ds => if ds.isEmpty then [.punctuator .openBrace] else [] :=
  (complete_read constant).enclosed starts (by simp [StringValue.BeginsDescribed])
    (by simp [bars]) (by rintro _ _ (⟨_, rfl⟩ | ⟨_, rfl⟩ | ⟨_, rfl⟩) <;> simp [bars])

end FieldDefinition

namespace EnumValueDefinition

def bars : List Token :=
  [.punctuator .atSign, .punctuator .openParen]

theorem starts : Starts Derives StringValue.BeginsDescribed := by
  intro ws d hg
  cases hg with
  | intro _ hu => exact StringValue.begins_of_description hu

theorem sound_read : Sound (read true) Derives := by
  intro c
  simp only [read, always_located, always_bind, always_token, always_pure]
  refine (StringValue.sound_readDescription c).mono ?_
  rintro description d₁ ⟨u, hu, htu⟩ t name hn hname
  split at hname
  · simp only [Option.ite_none_right_eq_some, Option.some.injEq] at hname
    obtain ⟨henum, rfl⟩ := hname
    refine (Directive.sound_readAll true _).mono ?_
    rintro directives d ⟨w, hw, htw⟩
    exact ⟨_, .intro ⟨description, _, directives, _⟩ hu henum hw, htu.append ⟨hn, htw⟩⟩
  · exact absurd hname (by simp)

theorem complete_read (constant : Bool) : Complete (read constant) Derives fun _ => bars := by
  intro ws node c d hg ht hd
  cases hg with
  | @intro u w _ hu henum hw =>
    obtain ⟨d₁, htu, hn, htw⟩ := Cursor.takes_append.mp ht
    simp only [read, ends_located, ends_bind, ends_token, ends_pure]
    refine (StringValue.complete_readDescription hu htu hn).mono ?_
    rintro description _ ⟨rfl, h₁⟩
    refine ⟨_, node.name, hn, by simp [henum], ?_⟩
    refine (Directive.complete_readAll constant w _ _ d (hw.relax constant) htw
      (hd.mono (by simp [bars]))).mono ?_
    rintro directives _ ⟨rfl, h₂⟩
    refine ⟨rfl, ?_⟩
    change EnumValueDefinition.mk (bare description) node.name (bare directives) Span.zero =
      EnumValueDefinition.mk (bare node.description) node.name (bare node.directives) Span.zero
    rw [h₁, h₂]

theorem sound_readAll : Sound (readAll true) (Enclosed .openBrace .closeBrace Derives) :=
  sound_read.enclosed (fun _ _ => starts.ne_nil) _ _

theorem complete_readAll (constant : Bool) :
    Complete (readAll constant) (Enclosed .openBrace .closeBrace Derives)
      fun ds => if ds.isEmpty then [.punctuator .openBrace] else [] :=
  (complete_read constant).enclosed starts (by simp [StringValue.BeginsDescribed])
    (by simp [bars]) (by rintro _ _ (⟨_, rfl⟩ | ⟨_, rfl⟩ | ⟨_, rfl⟩) <;> simp [bars])

end EnumValueDefinition

end GraphQLText
