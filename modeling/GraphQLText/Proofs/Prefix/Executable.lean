import GraphQLText.Proofs.Prefix.Viable
import GraphQLText.Proofs.Reading.Operation

/-!
# Recovery from errors in executable definitions

The readers of values, selections, operations and fragments recover, each for its own grammar.
-/

namespace GraphQLText

set_option autoImplicit false

open Reader

theorem TypeName.recovers_read : Recovers TypeName.read TypeName.Derives := by
  apply Recovers.of_start
  · exact .of_fillers (.intro ⟨"a", Span.zero⟩) (by decide)
  · exact fun c => fails_located_token (fun _ _ => fails_pure _) rfl

theorem Variable.recovers_read : Recovers Variable.read Variable.Derives := by
  apply Recovers.mono (.located ((Recovers.expect (by decide)).bind sound_expect fun _ =>
    Recovers.nameToken.bind_pure))
  rintro _ name ⟨⟨⟩, ⟨⟩⟩
  exact ⟨_, ⟨name, Span.zero⟩, .intro _, rfl⟩

section NamedValues

variable {ν : Type} {value : Reader ν} {G : Phrase → ν → Prop} {expected : Construct}

theorem NamedValue.recovers_read (h : Recovers value G) :
    Recovers (NamedValue.read expected value) (NamedValue.Derives G) := by
  apply Recovers.mono (.located (Recovers.nameToken.bind sound_nameToken fun _ =>
    (Recovers.expect (by decide)).bind sound_expect fun _ => h.bind_pure))
  rintro _ v ⟨⟨⟩, ⟨⟨⟩, hv⟩⟩
  exact ⟨_, ⟨_, v, Span.zero⟩, .intro _ hv, rfl⟩

end NamedValues

namespace Value

theorem viable_nil (constant : Bool) : Viable (Derives constant) [] :=
  .of_fillers (.enum ⟨"a", Span.zero⟩ (by decide)) (by decide)

/-- A value is told from its first token, so only lists, objects and variables fail behind it. -/
theorem recovers_readTo (constant : Bool) (depth : Nat) :
    Recovers (readTo constant depth) (Derives constant) := by
  induction depth with
  | zero => exact ⟨viable_nil constant, fun c => fails_fail.mpr (.start (viable_nil constant) c)⟩
  | succ depth ih =>
    refine ⟨viable_nil constant, fun c => ?_⟩
    have hstart := Cursor.Partway.start (viable_nil constant) c
    have hvalue := sound_readTo constant depth
    rw [readTo]
    apply fails_peek_bind
    split
    · exact fails_bind.mpr ⟨fails_skip, fun _ _ _ => fails_pure _⟩
    · exact fails_map.mpr (fails_located_token (fun _ _ => fails_pure _) hstart)
    · exact fails_map.mpr (fails_located_token (fun _ _ => fails_pure _) hstart)
    · exact fails_map.mpr (fails_located_token (fun _ _ => fails_pure _) hstart)
    · refine fails_ite.mpr ⟨fun _ => fails_fail.mpr hstart, fun hconstant => ?_⟩
      refine fails_map.mpr fun f hf => ?_
      apply (Variable.recovers_read.fails c f hf).mono
      exact fun ws v hv => ⟨ws, _, .var (by simpa using hconstant) hv, rfl⟩
    · exact fails_map.mpr (fails_located_token (fun _ _ => fails_pure _) hstart)
    · exact fails_map.mpr (fails_located_token (fun _ _ => fails_pure _) hstart)
    · exact fails_map.mpr (fails_located_token (fun _ _ => fails_pure _) hstart)
    · exact fails_map.mpr (fails_located_token (fun _ _ => fails_pure _) hstart)
    · refine fails_map.mpr fun f hf => ?_
      apply ((ih.bracketed hvalue _ _ _).fails c f hf).mono
      rintro _ items ⟨u, hm, rfl⟩
      exact ⟨_, _, .list ⟨items, Span.zero⟩ hm, rfl⟩
    · refine fails_map.mpr fun f hf => ?_
      have hfield : Recovers (NamedValue.read .objectField (readTo constant depth))
          (NamedValue.Derives (Derives constant)) := NamedValue.recovers_read ih
      apply ((hfield.bracketed (NamedValue.sound_read hvalue) _ _ _).fails c f hf).mono
      rintro _ items ⟨u, hm, rfl⟩
      exact ⟨_, _, .object ⟨items, Span.zero⟩ hm, rfl⟩
    · exact fails_fail.mpr hstart

theorem recovers_read (constant : Bool) : Recovers (read constant) (Derives constant) := by
  refine ⟨viable_nil constant, fun c => ?_⟩
  rw [read, fails_nested]
  exact (recovers_readTo constant (c.tokens.length + 1)).fails c

theorem recovers_readDefault : Recovers readDefault? DerivesDefault :=
  ((recovers_read true).behind (by decide)).weaken

end Value

section Constants

variable (constant : Bool)

theorem Argument.recovers_read : Recovers (Argument.read constant) (Argument.Derives constant) :=
  NamedValue.recovers_read (Value.recovers_read constant)

theorem Argument.recovers_readAll :
    Recovers (Argument.readAll constant) (Argument.DerivesAll constant) :=
  ((Argument.recovers_read constant).enclosed (Argument.sound_read constant) _ _).weaken

theorem Directive.recovers_read :
    Recovers (Directive.read constant) (Directive.Derives constant) := by
  apply Recovers.mono (.located ((Recovers.expect (by decide)).bind sound_expect fun _ =>
    Recovers.nameToken.bind sound_nameToken fun _ =>
      (Argument.recovers_readAll constant).bind_pure))
  rintro _ arguments ⟨⟨⟩, ⟨⟨⟩, ha⟩⟩
  exact ⟨_, _, .intro ⟨_, arguments, Span.zero⟩ ha, rfl⟩

/-- Directives fail in one that has begun. -/
theorem Directive.recovers_readSome :
    Recovers (Directive.readAll constant) fun ws ds =>
      Directive.DerivesAll constant ws ds ∧ ds ≠ [] := by
  apply (Directive.recovers_read constant).whileMore (Directive.sound_read constant)
  · intro c d h
    simp only [at?, Except.ok.injEq, Prod.mk.injEq] at h
    exact h.2.symm
  · exact fun c => fails_at?

theorem Directive.recovers_readAll :
    Recovers (Directive.readAll constant) (Directive.DerivesAll constant) :=
  (Directive.recovers_readSome constant).weaken

end Constants

theorem TypeRef.recovers_readTo (depth : Nat) : Recovers (readTo depth) Derives := by
  have hviable : Viable Derives [] := .of_fillers (.named (.intro ⟨"A", Span.zero⟩)) (by decide)
  induction depth with
  | zero => exact ⟨hviable, fun c => fails_fail.mpr (.start hviable c)⟩
  | succ depth ih =>
    refine ⟨hviable, fun c => ?_⟩
    have hclosing : ∀ t ∈ [Token.punctuator .closeBracket], t.IsFiller := by decide
    rw [readTo, fails_bind]
    constructor
    · apply fails_peek_bind
      split
      · next hn =>
        have hopen : c.Takes [.mark .openBracket] c.advance := ⟨hn, rfl⟩
        rw [fails_bind, always_skip, fails_bind]
        refine ⟨fails_skip, fun f hf => ?_, ?_⟩
        · apply (ih.fails c.advance f hf).within hopen _ hclosing
          exact fun ws t ht => ⟨_, _, .list ht, by simp⟩
        · refine (sound_readTo depth c.advance).mono fun t d ht => ?_
          obtain ⟨u, hu, htu⟩ := ht
          refine fails_bind.mpr ⟨fails_expect ⟨_, hopen.append htu, ?_⟩, fun _ _ _ => fails_pure _⟩
          exact ⟨_, _, [.punctuator .closeBracket], .list hu, by simp, hclosing⟩
      · exact fails_map.mpr (fails_located_token (fun _ _ => fails_pure _) (.start hviable c))
      · exact fails_fail.mpr (.start hviable c)
    · refine (sound_readUnmarked (sound_readTo depth) c).mono fun t d ht => ?_
      obtain ⟨u, ⟨hnot, hu⟩, htu⟩ := ht
      rw [fails_bind, always_eat]
      refine ⟨fails_eat, fun hn => ?_, fun _ => fails_pure _⟩
      -- A second mark is one too many, but with the first one this is a type.
      have hmarked := Viable.of_phrase (Derives.nonNull hu hnot)
      have hbang : d.Takes [.mark .bang] d.advance := ⟨hn, rfl⟩
      simp only [if_true, fails_bind, always_at?, fails_ite, fails_fail]
      exact ⟨fails_at?, fun _ => ⟨_, htu.append hbang, hmarked⟩, fun _ => fails_pure _⟩

theorem TypeRef.recovers_read : Recovers read Derives := by
  refine ⟨(recovers_readTo 0).viable, fun c => ?_⟩
  rw [read, fails_nested]
  exact (recovers_readTo (c.tokens.length + 1)).fails c

section Selections

variable {selection : Reader Selection} {G : Phrase → Selection → Prop}

abbrev SelectionSet.Body (G : Phrase → Selection → Prop) (ws : Phrase) (ss : List Selection) :
    Prop :=
  Enclosed .openBrace .closeBrace G ws ss ∧ ss ≠ []

theorem SelectionSet.recovers_readOf (h : Recovers selection G) (hs : Sound selection G) :
    Recovers (readOf selection) (SelectionSet.Body G) := by
  have hitems := h.enclosed hs .openBrace .closeBrace
  refine ⟨hitems.viable, fun c => ?_⟩
  rw [readOf, fails_bind, always_at?, fails_ite]
  exact ⟨fails_at?, fun _ => hitems.bind_pure.located.fails c, fun _ => fails_pure _⟩

theorem SelectionSet.recovers_readBodyOf {expected : Construct} (h : Recovers selection G)
    (hs : Sound selection G) : Recovers (readBodyOf expected selection) (SelectionSet.Body G) := by
  have hitems := recovers_readOf h hs
  refine ⟨hitems.viable, fun c => ?_⟩
  rw [readBodyOf, fails_bind, always_at?, fails_ite, fails_fail]
  exact ⟨fails_at?, fun _ => hitems.fails c, fun _ => .start hitems.viable c⟩

theorem Field.recovers_readOf (h : Recovers selection G) (hs : Sound selection G) :
    Recovers (readOf selection) (FieldOf.Derives G) := by
  have hsecond : Recovers (behind? (.punctuator .colon) (nameToken .field)) _ :=
    (Recovers.nameToken.behind (by decide)).weaken
  apply Recovers.mono (.located (Recovers.nameToken.bind sound_nameToken fun _ =>
    hsecond.bind (sound_nameToken.behind _) fun _ =>
    (Argument.recovers_readAll false).bind (Argument.sound_readAll false) fun _ =>
    (Directive.recovers_readAll false).bind (Directive.sound_readAll false) fun _ =>
    (SelectionSet.recovers_readOf h hs).bind_pure))
  rintro _ ss ⟨hfirst, ⟨hsecond, ⟨ha, ⟨hd, hss⟩⟩⟩⟩
  cases hfirst
  cases hsecond with
  | absent =>
    exact ⟨_, ⟨none, _, _, _, ⟨ss, Span.zero⟩, Span.zero⟩, .intro _ .absent ha hd hss.1, rfl⟩
  | present hname =>
    cases hname
    exact ⟨_, ⟨some _, _, _, _, ⟨ss, Span.zero⟩, Span.zero⟩, .intro _ (.present _) ha hd hss.1,
      rfl⟩

theorem TypeName.sound_readUnlessOn {expected : Construct} {r : Reader TypeName}
    (h : Sound r TypeName.Derives) :
    Sound (at? (.name "on") >>= fun found => if found = true then fail expected else r)
      fun ws n => n.name ≠ "on" ∧ ws = [.name n.name] := by
  intro c
  rw [always_bind, always_at?, always_ite]
  refine ⟨fun _ => always_fail, fun hon => (h c).mono fun n d hn => ?_⟩
  obtain ⟨u, ⟨⟩, ht⟩ := hn
  refine ⟨_, ⟨?_, rfl⟩, ht⟩
  rintro hname
  rw [← hname] at hon
  exact hon (by simp [ht.1])

theorem TypeName.recovers_readUnlessOn {expected : Construct} {r : Reader TypeName}
    (h : ∀ c, Fails r c (· = c)) :
    Recovers (at? (.name "on") >>= fun found => if found = true then fail expected else r)
      fun ws (n : TypeName) => n.name ≠ "on" ∧ ws = [.name n.name] :=
  .unlessAt (.of_start (.of_fillers ⟨by decide, rfl⟩ (a := ⟨"a", Span.zero⟩) (by decide)) h)

theorem FragmentSpread.fails_read {c : Cursor} (hn : c.next? ≠ some (.punctuator .ellipsis)) :
    Fails FragmentSpread.read c
      (c.Partway fun ws s => FragmentSpread.Derives (.mark .ellipsis :: ws) s) := by
  have hname : Sound (relabel .fragmentSpread TypeName.read) TypeName.Derives :=
    fun c => always_relabel.mpr (TypeName.sound_read c)
  have hstart : ∀ c, Fails (relabel .fragmentSpread TypeName.read) c (· = c) :=
    fun c => fails_relabel (fails_located_token (fun _ _ => fails_pure _) rfl)
  rw [read, fails_located, fails_bind, always_eat]
  refine ⟨fails_eat, fun hn' => absurd hn' hn, fun _ => ?_⟩
  rw [unlessAt_bind]
  refine ((TypeName.recovers_readUnlessOn hstart).bind (TypeName.sound_readUnlessOn hname) fun _ =>
    (Directive.recovers_readAll false).bind_pure).mono ?_ |>.fails c
  rintro _ ds ⟨⟨hon, rfl⟩, hds⟩
  exact ⟨_, ⟨_, ds, Span.zero⟩, .intro _ hon hds, rfl⟩

theorem InlineFragment.fails_readOf (h : Recovers selection G) (hs : Sound selection G) {c : Cursor}
    (hn : c.next? ≠ some (.punctuator .ellipsis)) :
    Fails (readOf selection) c
      (c.Partway fun ws f => InlineFragmentOf.Derives G (.mark .ellipsis :: ws) f) := by
  have hcondition : Recovers (behind? (.name "on") TypeName.read) _ :=
    (TypeName.recovers_read.behind (by decide)).weaken
  rw [readOf, fails_located, fails_bind, always_eat]
  refine ⟨fails_eat, fun hn' => absurd hn' hn, fun _ => ?_⟩
  refine (hcondition.bind (TypeName.sound_read.behind _) fun _ =>
    (Directive.recovers_readAll false).bind (Directive.sound_readAll false) fun _ =>
    (SelectionSet.recovers_readBodyOf h hs).bind_pure).mono ?_ |>.fails c
  rintro _ ss ⟨hcondition, ⟨hds, hss⟩⟩
  exact ⟨_, ⟨_, _, ⟨ss, Span.zero⟩, Span.zero⟩, .intro _ hcondition hds hss.1 hss.2, rfl⟩

end Selections

namespace Selection

theorem derives_field (name : String) :
    Derives [.name name] (.field ⟨none, name, [], [], .absent, Span.zero⟩) :=
  .field (.intro ⟨none, name, [], [], .absent, Span.zero⟩ .absent .absent .nil .absent)

theorem enclosed_field (name : String) :
    Enclosed .openBrace .closeBrace Derives [.mark .openBrace, .name name, .mark .closeBrace]
      [.field ⟨none, name, [], [], .absent, Span.zero⟩] :=
  .present (.single (derives_field name)) (by simp)

theorem viable_nil : Viable Derives [] :=
  .of_fillers (derives_field "a") (by decide)

/-- With an ellipsis alone a selection can go on as an inline fragment. -/
theorem viable_ellipsis : Viable Derives [.punctuator .ellipsis] := by
  have hfragment : Derives (.mark .ellipsis :: ([] ++ ([] ++ _))) _ :=
    .inline (.intro ⟨none, [], ⟨_, Span.zero⟩, Span.zero⟩ .absent .nil (enclosed_field "a")
      (by simp))
  exact ⟨_, _, _, hfragment, rfl, by decide⟩

theorem recovers_readTo (depth : Nat) : Recovers (readTo depth) Derives := by
  induction depth with
  | zero => exact ⟨viable_nil, fun c => fails_fail.mpr (.start viable_nil c)⟩
  | succ depth ih =>
    refine ⟨viable_nil, fun c => ?_⟩
    have hselection := sound_readTo depth
    rw [readTo]
    apply fails_peek_bind
    split
    · refine fails_map.mpr fun f hf => ?_
      apply ((Field.recovers_readOf ih hselection).fails c f hf).mono
      exact fun ws f hg => ⟨ws, _, .field hg, rfl⟩
    · next hn =>
      have hellipsis : c.Takes [.mark .ellipsis] c.advance := ⟨hn, rfl⟩
      have hinline : c.advance.next? ≠ some (.punctuator .ellipsis) →
          Fails (InlineFragment.readOf (readTo depth)) c.advance (c.Partway Derives) := by
        intro hn' f hf
        apply (InlineFragment.fails_readOf ih hselection hn' f hf).within hellipsis [] (by simp)
        exact fun ws f hg => ⟨_, _, .inline hg, by simp⟩
      rw [readFragmentOf, fails_located, fails_bind, always_skip]
      refine ⟨fails_skip, ?_⟩
      apply fails_peek_bind
      split
      · next hat =>
        exact fails_bind.mpr ⟨hinline (by simp [hat]), fun _ _ _ => fails_pure _⟩
      · next hbrace =>
        exact fails_bind.mpr ⟨hinline (by simp [hbrace]), fun _ _ _ => fails_pure _⟩
      · next hon =>
        exact fails_bind.mpr ⟨hinline (by simp [hon]), fun _ _ _ => fails_pure _⟩
      · next hname =>
        refine fails_bind.mpr ⟨fun f hf => ?_, fun _ _ _ => fails_pure _⟩
        apply (FragmentSpread.fails_read (by simp [hname]) f hf).within hellipsis [] (by simp)
        exact fun ws s hg => ⟨_, _, .spread hg, by simp⟩
      · exact fails_fail.mpr ⟨_, hellipsis, viable_ellipsis⟩
    · exact fails_fail.mpr (.start viable_nil c)

theorem recovers_read : Recovers read Derives := by
  refine ⟨viable_nil, fun c => ?_⟩
  rw [read, fails_nested]
  exact (recovers_readTo (c.tokens.length + 1)).fails c

end Selection

theorem SelectionSet.recovers_read :
    Recovers SelectionSet.read (SelectionSet.Body Selection.Derives) :=
  recovers_readOf Selection.recovers_read Selection.sound_read

theorem SelectionSet.recovers_readBody {expected : Construct} :
    Recovers (readBodyOf expected Selection.read) (SelectionSet.Body Selection.Derives) :=
  recovers_readBodyOf Selection.recovers_read Selection.sound_read

theorem VariableDefinition.recovers_read : Recovers read Derives := by
  apply Recovers.mono (.located (Variable.recovers_read.bind Variable.sound_read fun _ =>
    (Recovers.expect (by decide)).bind sound_expect fun _ =>
    TypeRef.recovers_read.bind TypeRef.sound_read fun _ =>
    Value.recovers_readDefault.bind Value.sound_readDefault fun _ =>
    (Directive.recovers_readAll true).bind_pure))
  rintro _ ds ⟨hvar, ⟨⟨⟩, ⟨htype, ⟨hdefault, hds⟩⟩⟩⟩
  exact ⟨_, ⟨_, _, _, ds, Span.zero⟩, .intro _ hvar htype hdefault hds, rfl⟩

theorem VariableDefinition.recovers_readAll :
    Recovers readAll (Enclosed .openParen .closeParen Derives) :=
  (recovers_read.enclosed sound_read _ _).weaken

namespace OperationDefinition

theorem recovers_readName : Recovers readName? (Perhaps TypeName.Derives) := by
  apply Recovers.of_start
  · exact .of_fillers .absent (by simp)
  · intro c
    rw [readName?]
    apply fails_peek_bind
    split
    · exact fails_map.mpr (fails_located_token (fun _ _ => fails_pure _) rfl)
    · exact fails_pure _

theorem recovers_readShorthand : Recovers readShorthand Derives := by
  apply Recovers.mono (.located SelectionSet.recovers_read.bind_pure)
  intro ws ss hss
  exact ⟨_, _, .shorthand ⟨.query, none, [], [], ⟨ss, Span.zero⟩, Span.zero⟩ rfl hss.1 hss.2, rfl⟩

theorem recovers_readLong : Recovers readLong Derives := by
  have hkind : Recovers (relabel .operationDefinition OperationKind.read)
      fun ws (kind : OperationKind) => ws = [.name kind.keyword] := by
    apply Recovers.of_start
    · exact .of_fillers (a := OperationKind.query) rfl (by decide)
    · exact fun c => fails_relabel (fails_token rfl)
  have hsound : Sound (relabel .operationDefinition OperationKind.read)
      fun ws (kind : OperationKind) => ws = [.name kind.keyword] :=
    fun c => always_relabel.mpr (OperationKind.sound_read c)
  apply Recovers.mono (.located (hkind.bind hsound fun _ =>
    recovers_readName.bind sound_readName fun _ =>
    VariableDefinition.recovers_readAll.bind VariableDefinition.sound_readAll fun _ =>
    (Directive.recovers_readAll false).bind (Directive.sound_readAll false) fun _ =>
    SelectionSet.recovers_readBody.bind_pure))
  intro ws ss hws
  obtain @⟨_, _, kind, _, rfl, @⟨_, _, name, _, hname, @⟨_, _, vars, _, hvars,
    @⟨_, _, ds, _, hds, hss⟩⟩⟩⟩ := hws
  have hlong := Derives.long ⟨kind, name, vars, ds, ⟨ss, Span.zero⟩, Span.zero⟩ hname hvars hds
    hss.1 hss.2 (isShorthand_iff_isBraced hname hvars hds hss.1 hss.2)
  exact ⟨_, _, hlong, rfl⟩

theorem recovers_read : Recovers read Derives := by
  refine ⟨recovers_readLong.viable, fun c => ?_⟩
  rw [read, fails_bind, always_at?, fails_ite]
  exact ⟨fails_at?, fun _ => recovers_readShorthand.fails c, fun _ => recovers_readLong.fails c⟩

end OperationDefinition

theorem FragmentDefinition.recovers_read : Recovers read Derives := by
  have hstart : ∀ c, Fails TypeName.read c (· = c) :=
    fun c => fails_located_token (fun _ _ => fails_pure _) rfl
  rw [read]
  simp only [unlessAt_bind]
  apply Recovers.mono (.located ((Recovers.expect (by decide)).bind sound_expect fun _ =>
    (TypeName.recovers_readUnlessOn hstart).bind
      (TypeName.sound_readUnlessOn TypeName.sound_read) fun _ =>
    (Recovers.expect (by decide)).bind sound_expect fun _ =>
    TypeName.recovers_read.bind TypeName.sound_read fun _ =>
    (Directive.recovers_readAll false).bind (Directive.sound_readAll false) fun _ =>
    SelectionSet.recovers_readBody.bind_pure))
  rintro _ ss ⟨⟨⟩, ⟨⟨hon, rfl⟩, ⟨⟨⟩, ⟨⟨⟩, ⟨hds, hss⟩⟩⟩⟩⟩
  exact ⟨_, ⟨_, _, _, ⟨ss, Span.zero⟩, Span.zero⟩, .intro _ hon hds hss.1 hss.2, rfl⟩

end GraphQLText
