import GraphQLText.Proofs.Grammar.Value
import GraphQLText.Proofs.Reading.Combined
import GraphQLText.TypeRef.Reader

/-!
# Reading values takes their phrases

The readers of values, directives and type references are sound and complete for their grammars.
Values nest, so both are shown for every bound on the depth. A phrase is never less long than its
value is deep, so that the bound of the whole reader is always enough.
-/

namespace GraphQLText

set_option autoImplicit false

open Reader

theorem TypeName.sound_read : Sound TypeName.read TypeName.Derives := by
  intro c
  simp only [TypeName.read, always_located, always_bind, always_nameToken, always_pure]
  intro name hn
  exact ⟨_, .intro _, hn, rfl⟩

theorem TypeName.complete_read : Complete TypeName.read TypeName.Derives fun _ => [] := by
  intro ws n c d hg ht _
  cases hg
  simp only [TypeName.read, ends_located, ends_bind, ends_nameToken, ends_pure]
  exact ⟨_, ht.1, ht.2.symm, rfl⟩

theorem Variable.sound_read : Sound Variable.read Variable.Derives := by
  intro c
  simp only [Variable.read, always_located, always_bind, always_expect, always_nameToken,
    always_pure]
  intro hd name hn
  exact ⟨_, .intro _, hd, hn, rfl⟩

theorem Variable.complete_read : Complete Variable.read Variable.Derives fun _ => [] := by
  intro ws v c d hg ht _
  cases hg
  simp only [Variable.read, ends_located, ends_bind, ends_expect, ends_nameToken, ends_pure]
  exact ⟨ht.1, _, ht.2.1, ht.2.2.symm, rfl⟩

theorem BooleanValue.sound_read : Sound BooleanValue.read BooleanValue.Derives := by
  intro c
  simp only [BooleanValue.read, always_located, always_bind, always_token, always_pure]
  intro t b hn hb
  split at hb
  · obtain rfl := Option.some.inj hb
    exact ⟨_, .intro _, hn, rfl⟩
  · obtain rfl := Option.some.inj hb
    exact ⟨_, .intro _, hn, rfl⟩
  · exact absurd hb (by simp)

theorem BooleanValue.complete_read :
    Complete BooleanValue.read BooleanValue.Derives fun _ => [] := by
  intro ws b c d hg ht _
  obtain ⟨value, span⟩ := b
  cases hg
  simp only [BooleanValue.read, ends_located, ends_bind, ends_token, ends_pure]
  cases value with
  | true => exact ⟨_, true, ht.1, rfl, ht.2.symm, rfl⟩
  | false => exact ⟨_, false, ht.1, rfl, ht.2.symm, rfl⟩

theorem StringValue.sound_read : Sound StringValue.read StringValue.Derives := by
  intro c
  simp only [StringValue.read, always_located, always_bind, always_token, always_pure]
  intro t b hn hb
  split at hb
  · obtain rfl := Option.some.inj hb
    exact ⟨_, .quoted _ rfl, hn, rfl⟩
  · obtain rfl := Option.some.inj hb
    exact ⟨_, .block _ rfl, hn, rfl⟩
  · exact absurd hb (by simp)

theorem StringValue.complete_read : Complete StringValue.read StringValue.Derives fun _ => [] := by
  intro ws s c d hg ht _
  obtain ⟨value, block, span⟩ := s
  simp only [StringValue.read, ends_located, ends_bind, ends_token, ends_pure]
  cases hg with
  | quoted _ hb =>
    simp only at hb
    subst hb
    exact ⟨_, (value, false), ht.1, rfl, ht.2.symm, rfl⟩
  | block _ hb =>
    simp only at hb
    subst hb
    exact ⟨_, (value, true), ht.1, rfl, ht.2.symm, rfl⟩

namespace Literal

theorem sound_readInt : Sound readInt fun ws l => ws = [.need (.int l.text)] := by
  intro c
  simp only [readInt, always_located, always_bind, always_token, always_pure]
  intro t s hn hs
  split at hs
  · obtain rfl := Option.some.inj hs
    exact ⟨_, rfl, hn, rfl⟩
  · exact absurd hs (by simp)

theorem complete_readInt :
    Complete readInt (fun ws l => ws = [.need (.int l.text)]) fun _ => [] := by
  rintro ws l c d rfl ht _
  simp only [readInt, ends_located, ends_bind, ends_token, ends_pure]
  exact ⟨_, l.text, ht.1, rfl, ht.2.symm, rfl⟩

theorem sound_readFloat : Sound readFloat fun ws l => ws = [.need (.float l.text)] := by
  intro c
  simp only [readFloat, always_located, always_bind, always_token, always_pure]
  intro t s hn hs
  split at hs
  · obtain rfl := Option.some.inj hs
    exact ⟨_, rfl, hn, rfl⟩
  · exact absurd hs (by simp)

theorem complete_readFloat :
    Complete readFloat (fun ws l => ws = [.need (.float l.text)]) fun _ => [] := by
  rintro ws l c d rfl ht _
  simp only [readFloat, ends_located, ends_bind, ends_token, ends_pure]
  exact ⟨_, l.text, ht.1, rfl, ht.2.symm, rfl⟩

theorem sound_readEnum :
    Sound readEnum fun ws l => isEnumName l.text = true ∧ ws = [.name l.text] := by
  intro c
  simp only [readEnum, always_located, always_bind, always_token, always_pure]
  intro t s hn hs
  split at hs
  · simp only [Option.ite_none_right_eq_some, Option.some.injEq] at hs
    obtain ⟨henum, rfl⟩ := hs
    exact ⟨_, ⟨henum, rfl⟩, hn, rfl⟩
  · exact absurd hs (by simp)

theorem complete_readEnum :
    Complete readEnum (fun ws l => isEnumName l.text = true ∧ ws = [.name l.text])
      fun _ => [] := by
  rintro ws l c d ⟨henum, rfl⟩ ht _
  simp only [readEnum, ends_located, ends_bind, ends_token, ends_pure]
  exact ⟨_, l.text, ht.1, by simp [henum], ht.2.symm, rfl⟩

end Literal

section NamedValues

variable {ν : Type} {value : Reader ν} {G : Phrase → ν → Prop} {expected : Construct}

theorem NamedValue.starts : Starts (NamedValue.Derives G) fun t => ∃ s, t = .name s := by
  intro ws f hg
  cases hg
  exact ⟨_, _, rfl, _, rfl⟩

theorem NamedValue.sound_read (h : Sound value G) :
    Sound (NamedValue.read expected value) (NamedValue.Derives G) := by
  intro c
  simp only [NamedValue.read, always_located, always_bind, always_nameToken, always_expect,
    always_pure]
  intro name hn hc
  refine (h _).mono ?_
  rintro v d ⟨u, hu, ht⟩
  exact ⟨_, .intro _ hu, hn, hc, ht⟩

theorem NamedValue.complete_read [HasShape ν] (h : Complete value G fun _ => []) :
    Complete (NamedValue.read expected value) (NamedValue.Derives G) fun _ => [] := by
  intro ws f c d hg ht _
  cases hg with
  | intro _ hu =>
    simp only [NamedValue.read, ends_located, ends_bind, ends_nameToken, ends_expect, ends_pure]
    refine ⟨_, ht.1, ht.2.1, (h _ _ _ d hu ht.2.2 (Cursor.clear_nil d)).mono ?_⟩
    rintro v e ⟨rfl, hshape⟩
    refine ⟨rfl, ?_⟩
    change (⟨f.name, bare v, Span.zero⟩ : NamedValue ν) = ⟨f.name, bare f.value, Span.zero⟩
    rw [hshape]

end NamedValues

namespace Value

/-- The tokens with which no value begins: all that close or separate. -/
def Begins (t : Token) : Prop :=
  t ≠ .punctuator .closeBracket ∧ t ≠ .punctuator .closeBrace

theorem starts (constant : Bool) : Starts (Derives constant) Begins := by
  intro ws v hg
  cases hg with
  | var _ hv => cases hv; exact ⟨_, _, rfl, by simp, by simp⟩
  | string hs => cases hs <;> exact ⟨_, _, rfl, by simp, by simp⟩
  | boolean hb => cases hb; exact ⟨_, _, rfl, by simp, by simp⟩
  | _ => exact ⟨_, _, rfl, by simp, by simp⟩

theorem sound_readTo (constant : Bool) (depth : Nat) :
    Sound (readTo constant depth) (Derives constant) := by
  induction depth with
  | zero =>
    intro c
    exact always_fail
  | succ depth ih =>
    intro c
    rw [readTo, always_bind, always_peek]
    split
    · next hn =>
      simp only [always_bind, always_skip, always_pure]
      exact ⟨_, .null, hn, rfl⟩
    · exact BooleanValue.sound_read.map (fun ws b hb => .boolean hb) c
    · exact BooleanValue.sound_read.map (fun ws b hb => .boolean hb) c
    · exact Literal.sound_readEnum.map (fun ws l hl => hl.2 ▸ .enum l hl.1) c
    · rw [always_ite]
      refine ⟨fun _ => always_fail, fun hc => ?_⟩
      exact Variable.sound_read.map (fun ws v hv => .var (by simpa using hc) hv) c
    · exact Literal.sound_readFloat.map (fun ws l hl => hl ▸ .float l) c
    · exact Literal.sound_readInt.map (fun ws l hl => hl ▸ .int l) c
    · exact StringValue.sound_read.map (fun ws s hs => .string hs) c
    · exact StringValue.sound_read.map (fun ws s hs => .string hs) c
    · rw [always_map, readListOf]
      refine (ih.bracketed (fun ws v hv => (starts constant).ne_nil hv) _ _ _ c).mono ?_
      rintro l d ⟨u, hu, ht⟩
      exact ⟨_, .list l hu, ht⟩
    · rw [always_map, readObjectOf]
      refine ((NamedValue.sound_read ih).bracketed
        (fun ws f hf => NamedValue.starts.ne_nil hf) _ _ _ c).mono ?_
      rintro o d ⟨u, hu, ht⟩
      exact ⟨_, .object o hu, ht⟩
    · exact always_fail

/-- A value whose phrase is no longer than the bound is no deeper, either. -/
abbrev DerivesWithin (constant : Bool) (depth : Nat) (ws : Phrase) (v : Value) : Prop :=
  Derives constant ws v ∧ ws.length ≤ depth

theorem starts_within (constant : Bool) (depth : Nat) :
    Starts (DerivesWithin constant depth) Begins :=
  fun ws v hg => starts constant ws v hg.1

theorem within_of_many {constant : Bool} {depth : Nat} {ws : Phrase} {vs : List Value}
    (h : Many (Derives constant) ws vs) (hlen : ws.length ≤ depth) :
    Many (DerivesWithin constant depth) ws vs :=
  h.mono fun _ _ _ hv hle => ⟨hv, Nat.le_trans hle hlen⟩

theorem within_of_fields {constant : Bool} {depth : Nat} {ws : Phrase} {fs : List ObjectField}
    (h : Many (NamedValue.Derives (Derives constant)) ws fs) (hlen : ws.length ≤ depth) :
    Many (NamedValue.Derives (DerivesWithin constant depth)) ws fs := by
  refine h.mono fun u f _ hf hle => ?_
  cases hf with
  | intro _ hv =>
    refine .intro f ⟨hv, ?_⟩
    simp only [List.length_cons] at hle
    omega

theorem complete_readTo (constant : Bool) (depth : Nat) :
    Complete (readTo constant depth) (DerivesWithin constant depth) fun _ => [] := by
  induction depth with
  | zero =>
    rintro ws v c d ⟨hg, hlen⟩ _ _
    exact absurd (List.length_eq_zero_iff.mp (Nat.le_zero.mp hlen)) ((starts constant).ne_nil hg)
  | succ depth ih =>
    rintro ws v c d ⟨hg, hlen⟩ ht hd
    rw [readTo, ends_bind, ends_peek]
    cases hg with
    | @var _ v hc hv =>
      have hmap : Ends (Value.variable <$> Variable.read) c
          fun b e => e = d ∧ bare b = bare (Value.variable v) :=
        (Variable.complete_read ws v c d hv ht hd).map fun _ h => congrArg Value.variable h
      cases hv
      rw [ht.1]
      simp only [hc, Bool.false_eq_true, if_false]
      exact hmap
    | int l =>
      rw [ht.1]
      exact (Literal.complete_readInt _ l c d rfl ht hd).map fun _ h => congrArg Value.int h
    | float l =>
      rw [ht.1]
      exact (Literal.complete_readFloat _ l c d rfl ht hd).map fun _ h => congrArg Value.float h
    | @string _ s hs =>
      have hmap : Ends (Value.string <$> StringValue.read) c
          fun b e => e = d ∧ bare b = bare (Value.string s) :=
        (StringValue.complete_read ws s c d hs ht hd).map fun _ h => congrArg Value.string h
      cases hs <;> rw [ht.1] <;> exact hmap
    | @boolean _ b hb =>
      have hmap : Ends (Value.boolean <$> BooleanValue.read) c
          fun b' e => e = d ∧ bare b' = bare (Value.boolean b) :=
        (BooleanValue.complete_read ws b c d hb ht hd).map fun _ h => congrArg Value.boolean h
      cases hb
      rw [ht.1]
      cases b.value <;> exact hmap
    | null =>
      rw [ht.1]
      simp only [ends_bind, ends_skip, ends_pure]
      exact ⟨ht.2.symm, trivial⟩
    | enum l henum =>
      have hmap : Ends (Value.enum <$> Literal.readEnum) c
          fun b e => e = d ∧ bare b = bare (Value.enum l) :=
        (Literal.complete_readEnum _ l c d ⟨henum, rfl⟩ ht hd).map fun _ h =>
          congrArg Value.enum h
      rw [ht.1]
      -- An enum value is a name, and none of the three that stand for other values.
      simp only [isEnumName, Bool.not_eq_true', Bool.or_eq_false_iff, beq_eq_false_iff_ne] at henum
      split <;> first | exact hmap | simp_all
    | @list u l hm =>
      have hitems : Many (DerivesWithin constant depth) u l.items :=
        within_of_many hm (by simp at hlen; omega)
      rw [ht.1]
      refine (ih.bracketed (starts_within constant depth) (by simp [Begins]) (by simp)
        (by simp) hitems ht).map fun l' h => ?_
      change reshape _ (Value.list l') = reshape _ (Value.list l)
      rw [reshape_list, reshape_list]
      exact congrArg Value.list h
    | @object u o hm =>
      have hfields : Many (NamedValue.Derives (DerivesWithin constant depth)) u o.items :=
        within_of_fields hm (by simp at hlen; omega)
      rw [ht.1]
      refine ((NamedValue.complete_read ih).bracketed NamedValue.starts (by simp) (by simp)
        (by simp) hfields ht).map fun o' h => ?_
      change reshape _ (Value.object o') = reshape _ (Value.object o)
      rw [reshape_object, reshape_object]
      exact congrArg Value.object h

theorem sound_read (constant : Bool) : Sound (read constant) (Derives constant) :=
  fun c => sound_readTo constant (c.tokens.length + 1) c

theorem complete_read (constant : Bool) :
    Complete (read constant) (Derives constant) fun _ => [] := by
  intro ws v c d hg ht hd
  have hlen := ht.length
  exact complete_readTo constant (c.tokens.length + 1) ws v c d ⟨hg, by omega⟩ ht hd

theorem sound_readDefault : Sound readDefault? DerivesDefault :=
  (sound_read true).behind _

theorem complete_readDefault :
    Complete readDefault? DerivesDefault fun _ => [.punctuator .equals] :=
  (complete_read true).behind _

end Value

theorem ListValue.complete_read (constant : Bool) :
    Complete (ListValue.read constant) (fun ws l => Value.Derives constant ws (.list l))
      fun _ => [] := by
  intro ws l c d hg ht _
  cases hg with
  | list _ hm =>
    exact (Value.complete_read constant).bracketed (Value.starts constant) (by simp [Value.Begins])
      (by simp) (by simp) hm ht

theorem ObjectValue.complete_read (constant : Bool) :
    Complete (ObjectValue.read constant) (fun ws o => Value.Derives constant ws (.object o))
      fun _ => [] := by
  intro ws o c d hg ht _
  cases hg with
  | object _ hm =>
    exact (NamedValue.complete_read (Value.complete_read constant)).bracketed NamedValue.starts
      (by simp) (by simp) (by simp) hm ht

namespace Argument

variable (constant : Bool)

theorem sound_read : Sound (read constant) (Derives constant) :=
  NamedValue.sound_read (Value.sound_read constant)

theorem complete_read : Complete (read constant) (Derives constant) fun _ => [] :=
  NamedValue.complete_read (Value.complete_read constant)

theorem sound_readAll : Sound (readAll constant) (DerivesAll constant) :=
  (sound_read constant).enclosed (fun _ _ h => NamedValue.starts.ne_nil h) _ _

theorem complete_readAll :
    Complete (readAll constant) (DerivesAll constant) fun _ => [.punctuator .openParen] := by
  have hread : Complete (readAll constant) (DerivesAll constant) _ :=
    (complete_read constant).enclosed NamedValue.starts (by simp) (by simp) (by simp)
  refine hread.mono fun as t ht => ?_
  split at ht
  · exact ht
  · exact absurd ht (by simp)

end Argument

namespace Directive

variable (constant : Bool)

theorem starts : Starts (Derives constant) (· = .punctuator .atSign) := by
  intro ws d hg
  cases hg
  exact ⟨_, _, rfl, rfl⟩

theorem sound_read : Sound (read constant) (Derives constant) := by
  intro c
  simp only [read, always_located, always_bind, always_expect, always_nameToken, always_pure]
  intro ha name hn
  refine (Argument.sound_readAll constant _).mono ?_
  rintro arguments d ⟨u, hu, ht⟩
  exact ⟨_, .intro _ hu, ha, hn, ht⟩

theorem complete_read :
    Complete (read constant) (Derives constant) fun _ => [.punctuator .openParen] := by
  intro ws node c d hg ht hd
  cases hg with
  | intro _ hu =>
    simp only [read, ends_located, ends_bind, ends_expect, ends_nameToken, ends_pure]
    refine ⟨ht.1, _, ht.2.1, (Argument.complete_readAll constant _ _ _ d hu ht.2.2 hd).mono ?_⟩
    rintro arguments e ⟨rfl, hshape⟩
    refine ⟨rfl, ?_⟩
    change Directive.mk node.name (bare arguments) Span.zero =
      Directive.mk node.name (bare node.arguments) Span.zero
    rw [hshape]

theorem sound_readAll : Sound (readAll constant) (DerivesAll constant) := by
  intro c
  have hstay : ∀ (c d : Cursor) b, at? (.punctuator .atSign) c = .ok (b, d) → d = c := by
    intro c d b h
    simp only [at?, Except.ok.injEq, Prod.mk.injEq] at h
    exact h.2.symm
  refine ((sound_read constant).whileMore (fun _ _ h => (starts constant).ne_nil h)
    (fun c d h => hstay c d true h) c).mono ?_
  rintro ds d ⟨ws, e, hm, ht, hstop⟩
  obtain rfl := hstay e d false hstop
  exact ⟨ws, hm, ht⟩

theorem complete_readAll :
    Complete (readAll constant) (DerivesAll constant)
      fun _ => [.punctuator .atSign, .punctuator .openParen] := by
  intro ws ds c d hg ht hd
  have hmore : ∀ (c : Cursor) t, c.next? = some t → t = .punctuator .atSign →
      at? (.punctuator .atSign) c = .ok (true, c) := by
    rintro c _ hn rfl
    simp [at?, hn]
  have hstop : at? (.punctuator .atSign) d = .ok (false, d) := by
    have hn : d.next? ≠ some (.punctuator .atSign) := hd _ (by simp)
    simp [at?, hn]
  refine (complete_read constant).whileMore (starts constant) hmore ?_ hg ht ?_ hstop
  · rintro a _ rfl
    simp
  · intro a _
    exact hd.mono (by simp)

/-- Directives behind a node keep its readers from all that is not an at sign. -/
theorem clear_of_all {constant : Bool} {ws : Phrase} {ds : List Directive} {c d : Cursor}
    {bars : List Token} (h : DerivesAll constant ws ds) (ht : c.Takes ws d)
    (hb : .punctuator .atSign ∉ bars) (hd : d.Clear bars) : c.Clear bars :=
  Many.clear h (starts constant) ht (fun _ heq => heq ▸ hb) hd

end Directive

namespace TypeRef

theorem ne_nil {ws : Phrase} {t : TypeRef} (h : Derives ws t) : ws ≠ [] := by
  induction h with
  | named hn => cases hn; simp
  | list => simp
  | nonNull _ _ ih => simp

theorem sound_readUnmarked {inner : Reader TypeRef} (h : Sound inner Derives) :
    Sound (readUnmarked inner) fun ws t => (∀ s, t ≠ .nonNull s) ∧ Derives ws t := by
  intro c
  rw [readUnmarked, always_bind, always_peek]
  split
  · next hn =>
    simp only [always_skip, always_bind, always_expect, always_pure]
    refine (h c.advance).mono ?_
    rintro t d ⟨u, hu, ht⟩ hc
    exact ⟨_, ⟨by simp, .list hu⟩, hn, ht.append ⟨hc, rfl⟩⟩
  · rw [always_map]
    refine (TypeName.sound_read c).mono ?_
    rintro n d ⟨u, hu, ht⟩
    exact ⟨u, ⟨by simp, .named hu⟩, ht⟩
  · exact always_fail

theorem sound_readTo (depth : Nat) : Sound (readTo depth) Derives := by
  induction depth with
  | zero =>
    intro c
    exact always_fail
  | succ depth ih =>
    intro c
    rw [readTo, always_bind]
    refine (sound_readUnmarked ih c).mono ?_
    rintro t d ⟨u, ⟨hnot, hu⟩, ht⟩
    rw [always_bind, always_eat]
    refine ⟨fun hb => ?_, fun _ => ?_⟩
    · simp only [if_true, always_bind, always_at?, always_ite]
      refine ⟨fun _ => always_fail, fun _ => always_pure.mpr ?_⟩
      exact ⟨_, .nonNull hu hnot, ht.append ⟨hb, rfl⟩⟩
    · exact always_pure.mpr ⟨u, hu, ht⟩

theorem complete_readUnmarked {depth : Nat}
    (hread : Complete (readTo depth) (fun ws t => Derives ws t ∧ ws.length ≤ depth)
      fun _ => [.punctuator .bang])
    {ws : Phrase} {t : TypeRef} {c d : Cursor} (hg : Derives ws t) (hlen : ws.length ≤ depth + 1)
    (hnot : ∀ s, t ≠ .nonNull s) (ht : c.Takes ws d) :
    Ends (readUnmarked (readTo depth)) c fun b e => e = d ∧ bare b = bare t := by
  rw [readUnmarked, ends_bind, ends_peek]
  cases hg with
  | @named _ n hn =>
    have hmap : Ends (TypeRef.named <$> TypeName.read) c
        fun b e => e = d ∧ bare b = bare (TypeRef.named n) :=
      (TypeName.complete_read ws n c d hn ht (Cursor.clear_nil d)).map fun _ h =>
        congrArg TypeRef.named h
    cases hn
    rw [ht.1]
    exact hmap
  | @list u t hu =>
    obtain ⟨e, htu, hc, hd⟩ := Cursor.takes_append.mp ht.2
    rw [ht.1]
    simp only [ends_skip, ends_bind, ends_expect, ends_pure]
    simp only [List.length_cons, List.length_append] at hlen
    refine (hread u t c.advance e ⟨hu, by omega⟩ htu (Cursor.clear_of_next hc (by simp))).mono ?_
    rintro b f ⟨rfl, hshape⟩
    exact ⟨hc, hd.symm, congrArg TypeRef.list hshape⟩
  | nonNull _ _ => exact absurd rfl (hnot _)

theorem complete_readTo (depth : Nat) :
    Complete (readTo depth) (fun ws t => Derives ws t ∧ ws.length ≤ depth)
      fun _ => [.punctuator .bang] := by
  induction depth with
  | zero =>
    rintro ws t c d ⟨hg, hlen⟩ _ _
    exact absurd (List.length_eq_zero_iff.mp (Nat.le_zero.mp hlen)) (ne_nil hg)
  | succ depth ih =>
    rintro ws t c d ⟨hg, hlen⟩ ht hd
    have hbang : d.next? ≠ some (.punctuator .bang) := hd _ (by simp)
    rw [readTo, ends_bind]
    by_cases hmarked : ∃ s, t = .nonNull s
    · obtain ⟨s, rfl⟩ := hmarked
      cases hg with
      | @nonNull u _ hu hnot =>
        obtain ⟨e, htu, hb, hde⟩ := Cursor.takes_append.mp ht
        rw [Cursor.takes_nil] at hde
        rw [List.length_append] at hlen
        refine (complete_readUnmarked ih hu (by omega) hnot htu).mono ?_
        rintro b f ⟨rfl, hshape⟩
        rw [ends_bind, ends_eat]
        refine ⟨fun _ => ?_, fun hno => absurd hb hno⟩
        simp only [if_true, ends_bind, ends_at?, ends_ite, ends_pure]
        refine ⟨fun h => ?_, fun _ => ⟨hde.symm, congrArg TypeRef.nonNull hshape⟩⟩
        rw [← hde] at h
        exact absurd (by simpa using h) hbang
    · refine (complete_readUnmarked ih hg hlen (fun s h => hmarked ⟨s, h⟩) ht).mono ?_
      rintro b f ⟨rfl, hshape⟩
      rw [ends_bind, ends_eat]
      refine ⟨fun h => absurd h hbang, fun _ => ?_⟩
      simp only [Bool.false_eq_true, if_false, ends_pure]
      exact ⟨trivial, hshape⟩

theorem sound_read : Sound read Derives :=
  fun c => sound_readTo (c.tokens.length + 1) c

theorem complete_read : Complete read Derives fun _ => [.punctuator .bang] := by
  intro ws t c d hg ht hd
  have hlen := ht.length
  exact complete_readTo (c.tokens.length + 1) ws t c d ⟨hg, by omega⟩ ht hd

end TypeRef

end GraphQLText
