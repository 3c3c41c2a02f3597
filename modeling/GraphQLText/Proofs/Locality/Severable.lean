import GraphQLText.Proofs.Locality.Copies
import GraphQLText.Proofs.Spans.Nodes

/-!
# What is read can be cut out

What a reader of the language takes from a source is read by itself, too, as the same node, moved to
the beginning. That holds of readers in constant places as well, although the same production is not
in a constant place when it is entered on its own.
-/

namespace GraphQLText

set_option autoImplicit false

open Reader

/-- The node that was read from the one place to the other can be cut out: its production reads the
same tokens on their own, and gives the same node at another place. -/
structure Part.Severed (x : Part) (c d : Cursor) : Prop where
  takes : ∃ ws : Phrase, ws ≠ [] ∧ c.Takes ws d ∧
    ∀ c' d', c'.Takes ws d' → d'.isComplete = true →
      Ends x.production.read c' fun b e => e = d' ∧ bare b = bare x.node
  copies : ∀ (o : Overlap) c' b e, ¬ o.strict → o.Meets c c' → x.production.read c' = .ok (b, e) →
    o.Within d → x.production.moved 0 x.node = x.production.moved o.shift b

/-- What the reader takes for a node of the production can be cut out. -/
def Reader.Severable (p : Production) (r : Reader p.Node) : Prop :=
  ∀ c a d, r c = .ok (a, d) → (⟨p, a⟩ : Part).Severed c d

section Severed

variable {p : Production} {r : Reader p.Node} {G H : Phrase → p.Node → Prop}
  {bars : p.Node → List Token}

/-- A phrase for which the production is complete can be cut out. -/
theorem Part.severed_of_takes {c d : Cursor} {ws : Phrase} {a : p.Node} (hr : r c = .ok (a, d))
    (hcopies : ∀ o : Overlap, ¬ o.strict → Copies o r p.read) (hcomplete : Complete p.read H bars)
    (hg : H ws a) (ht : c.Takes ws d) (hne : ws ≠ []) : (⟨p, a⟩ : Part).Severed c d where
  takes := ⟨ws, hne, ht, fun c' d' ht' hd' =>
    hcomplete ws a c' d' hg ht' (Cursor.clear_of_isComplete hd' _)⟩
  copies o c' b e hs hmeets h' hw := by
    obtain ⟨ha, _⟩ := (hcopies o hs c c' b e hmeets h').1 a d hr hw fun hf => hf.elim
    exact (congrArg (p.moved 0) ha).trans (moved_moved 0 o.shift b)

/-- A reader that is sound for a grammar for which its production is complete. -/
theorem Reader.severable_of_sound (hcopies : ∀ o : Overlap, ¬ o.strict → Copies o r p.read)
    (hsound : Sound r G) (hcomplete : Complete p.read H bars) (hGH : ∀ ws a, G ws a → H ws a)
    (hne : ∀ ws a, G ws a → ws ≠ []) : Severable p r := by
  intro c a d hr
  obtain ⟨ws, hg, ht⟩ := hsound c a d hr
  exact Part.severed_of_takes hr hcopies hcomplete (hGH ws a hg) ht (hne ws a hg)

end Severed

theorem TypeName.severable_read : Severable .typeName TypeName.read :=
  severable_of_sound (fun _ _ => TypeName.copies_read) TypeName.sound_read TypeName.complete_read
    (fun _ _ h => h) (by rintro _ _ ⟨⟩; simp)

theorem Variable.severable_read : Severable .variable Variable.read :=
  severable_of_sound (fun _ _ => Variable.copies_read) Variable.sound_read Variable.complete_read
    (fun _ _ h => h) (by rintro _ _ ⟨⟩; simp)

theorem BooleanValue.severable_read : Severable .booleanValue BooleanValue.read :=
  severable_of_sound (fun _ _ => BooleanValue.copies_read) BooleanValue.sound_read
    BooleanValue.complete_read (fun _ _ h => h) (by rintro _ _ ⟨⟩; simp)

theorem StringValue.severable_read : Severable .stringValue StringValue.read :=
  severable_of_sound (fun _ _ => StringValue.copies_read) StringValue.sound_read
    StringValue.complete_read (fun _ _ h => h) (by rintro _ _ (_ | _) <;> simp)

theorem Literal.severable_readInt : Severable .intValue Literal.readInt :=
  severable_of_sound (fun _ _ => Literal.copies_readInt) Literal.sound_readInt
    Literal.complete_readInt (fun _ _ h => h) (by rintro _ _ rfl; simp)

theorem Literal.severable_readFloat : Severable .floatValue Literal.readFloat :=
  severable_of_sound (fun _ _ => Literal.copies_readFloat) Literal.sound_readFloat
    Literal.complete_readFloat (fun _ _ h => h) (by rintro _ _ rfl; simp)

theorem Literal.severable_readEnum : Severable .enumValue Literal.readEnum :=
  severable_of_sound (fun _ _ => Literal.copies_readEnum) Literal.sound_readEnum
    Literal.complete_readEnum (fun _ _ h => h) (by rintro _ _ ⟨_, rfl⟩; simp)

section Constants

variable {constant : Bool}

/-- A value from any place may stand where variables may. -/
theorem Value.Derives.free {ws : Phrase} {v : Value} (h : Value.Derives constant ws v) :
    Value.Derives false ws v := by
  cases constant with
  | false => exact h
  | true => exact h.relax false

theorem NamedValue.free {ws : Phrase} {f : NamedValue Value}
    (h : NamedValue.Derives (Value.Derives constant) ws f) :
    NamedValue.Derives (Value.Derives false) ws f :=
  h.mono fun _ hv => hv.free

theorem ListValue.severable_read : Severable .listValue (ListValue.read constant) := by
  have hsound : Sound (ListValue.read constant) fun ws l =>
      Value.Derives constant ws (.list l) := by
    intro c
    refine ((Value.sound_read constant).bracketed (fun _ _ => (Value.starts constant).ne_nil) _ _ _
      c).mono ?_
    rintro l d ⟨u, hm, ht⟩
    exact ⟨_, .list l hm, ht⟩
  exact severable_of_sound (fun _ hs => ListValue.copies_read fun h => absurd h hs) hsound
    (ListValue.complete_read false) (fun _ _ h => h.free) (by rintro _ _ ⟨⟩; simp)

theorem ObjectValue.severable_read : Severable .objectValue (ObjectValue.read constant) := by
  have hsound : Sound (ObjectValue.read constant) fun ws o =>
      Value.Derives constant ws (.object o) := by
    intro c
    refine ((NamedValue.sound_read (Value.sound_read constant)).bracketed
      (fun _ _ => NamedValue.starts.ne_nil) _ _ _ c).mono ?_
    rintro o d ⟨u, hm, ht⟩
    exact ⟨_, .object o hm, ht⟩
  exact severable_of_sound (fun _ hs => ObjectValue.copies_read fun h => absurd h hs) hsound
    (ObjectValue.complete_read false) (fun _ _ h => h.free) (by rintro _ _ ⟨⟩; simp)

theorem ObjectField.severable_read : Severable .objectField (ObjectField.read constant) :=
  severable_of_sound
    (fun _ hs => NamedValue.copies_read (Value.copies_read fun h => absurd h hs))
    (NamedValue.sound_read (Value.sound_read constant))
    (NamedValue.complete_read (Value.complete_read false)) (fun _ _ h => NamedValue.free h)
    fun _ _ => NamedValue.starts.ne_nil

theorem Argument.severable_read : Severable .argument (Argument.read constant) :=
  severable_of_sound
    (fun _ hs => NamedValue.copies_read (Value.copies_read fun h => absurd h hs))
    (Argument.sound_read constant) (Argument.complete_read false) (fun _ _ h => NamedValue.free h)
    fun _ _ => NamedValue.starts.ne_nil

theorem Directive.severable_read : Severable .directive (Directive.read constant) := by
  refine severable_of_sound (fun _ hs => Directive.copies_read fun h => absurd h hs)
    (Directive.sound_read constant) (Directive.complete_read false) ?_
    fun _ _ => (Directive.starts constant).ne_nil
  rintro _ d ⟨_, hu⟩
  exact .intro d (hu.mono fun _ _ _ h => NamedValue.free h)

end Constants

theorem SelectionSet.severable_readBraced :
    Severable .selectionSet (readBraced Selection.read) := by
  have hread : ∀ c : Cursor, c.next? = some (.punctuator .openBrace) →
      SelectionSet.read c = readBraced Selection.read c := by
    intro c hn
    rw [SelectionSet.read, readOf_eq, bind_apply, at?, hn]
    rfl
  intro c s d h
  have hlt := Consuming.length_lt c s d h
  have hn : c.next? = some (.punctuator .openBrace) := by
    obtain ⟨f, hf, _⟩ := located_eq_ok.mp h
    obtain ⟨_, e, he, _⟩ := bind_eq_ok.mp hf
    exact (always_expect (Q := fun _ _ => c.next? = _)).mpr (fun hn => hn) _ e he
  obtain ⟨ws, hg, ht⟩ := SelectionSet.sound_read c s d ((hread c hn).trans h)
  have hne : ws ≠ [] := by
    rintro rfl
    obtain rfl := ht
    exact absurd hlt (Nat.lt_irrefl _)
  refine ⟨⟨ws, hne, ht, fun c' d' ht' hd' => ?_⟩, fun o c' b e hs hmeets h' hw => ?_⟩
  · exact SelectionSet.complete_read ws s c' d' hg ht' (Cursor.clear_of_isComplete hd' _)
  · have hn' : c'.next? = some (.punctuator .openBrace) :=
      (hmeets.cases_of_lt (hw.lt_of_lt hlt)).1 ▸ hn
    have h'' := (hread c' hn').symm.trans h'
    obtain ⟨hs, _⟩ := (copies_readBraced Selection.copies_read c c' b e hmeets h'').1 s d h hw
      fun hf => hf.elim
    exact (congrArg (Production.moved .selectionSet 0) hs).trans (moved_moved 0 o.shift b)

theorem Field.severable_read : Severable .field Field.read :=
  severable_of_sound (fun _ _ => Field.copies_readOf Selection.copies_read)
    (Field.sound_readOf Selection.sound_read fun _ _ => Selection.starts.ne_nil)
    Field.complete_read (fun _ _ h => h) (by
      rintro _ _ ⟨f, hlabel, _, _, _⟩
      simp)

theorem FragmentSpread.severed_of_read {c d : Cursor} {s : FragmentSpread}
    (hn : c.next? = some (.punctuator .ellipsis)) (h : FragmentSpread.read c = .ok (s, d)) :
    (⟨.fragmentSpread, s⟩ : Part).Severed c d := by
  obtain ⟨ws, hg, ht⟩ := FragmentSpread.sound_read (Selection.eat_of_next hn) s d h
  exact Part.severed_of_takes h (fun _ _ => FragmentSpread.copies_read)
    FragmentSpread.complete_read hg (.cons hn ht) (by simp)

theorem InlineFragment.severed_of_read {c d : Cursor} {f : InlineFragment}
    (hn : c.next? = some (.punctuator .ellipsis)) (h : InlineFragment.read c = .ok (f, d)) :
    (⟨.inlineFragment, f⟩ : Part).Severed c d := by
  obtain ⟨ws, hg, ht⟩ := InlineFragment.sound_readOf Selection.sound_read
    (fun _ _ => Selection.starts.ne_nil) (Selection.eat_of_next hn) f d h
  exact Part.severed_of_takes h (fun _ _ => InlineFragment.copies_readOf Selection.copies_read)
    InlineFragment.complete_read hg (.cons hn ht) (by simp)

theorem VariableDefinition.severable_read :
    Severable .variableDefinition VariableDefinition.read :=
  severable_of_sound (fun _ _ => VariableDefinition.copies_read) VariableDefinition.sound_read
    VariableDefinition.complete_read (fun _ _ h => h)
    fun _ _ => VariableDefinition.starts.ne_nil

theorem InputValueDefinition.severable_read :
    Severable .inputValueDefinition InputValueDefinition.read :=
  severable_of_sound (fun _ _ => InputValueDefinition.copies_read) InputValueDefinition.sound_read
    InputValueDefinition.complete_read (fun _ _ h => h)
    fun _ _ => InputValueDefinition.starts.ne_nil

theorem FieldDefinition.severable_read : Severable .fieldDefinition (FieldDefinition.read true) :=
  severable_of_sound (fun _ hs => FieldDefinition.copies_read fun h => absurd h hs)
    FieldDefinition.sound_read (FieldDefinition.complete_read false) (fun _ _ h => h)
    fun _ _ => FieldDefinition.starts.ne_nil

theorem EnumValueDefinition.severable_read :
    Severable .enumValueDefinition (EnumValueDefinition.read true) :=
  severable_of_sound (fun _ hs => EnumValueDefinition.copies_read fun h => absurd h hs)
    EnumValueDefinition.sound_read (EnumValueDefinition.complete_read false) (fun _ _ h => h)
    fun _ _ => EnumValueDefinition.starts.ne_nil

theorem RootOperationType.severable_read : Severable .rootOperationType RootOperationType.read :=
  severable_of_sound (fun _ _ => RootOperationType.copies_read) RootOperationType.sound_read
    RootOperationType.complete_read (fun _ _ h => h) fun _ _ => RootOperationType.starts.ne_nil

theorem Definition.severable_read : Severable .definition Definition.read :=
  severable_of_sound (fun _ _ => Definition.copies_read)
    (fun c => (Definition.sound_read c).mono fun _ _ h => h.2) Definition.complete_read
    (fun _ _ h => h) fun _ _ => Definition.starts.ne_nil

namespace Document

/-- A document is its definitions and its span, for its size is not moved. -/
theorem eq_of_read {c d : Cursor} {a : Document} (h : read c = .ok (a, d)) :
    whileMore more Definition.read c = .ok (a.definitions, d) ∧
      a.span = ⟨c.nextSpan.start, max d.lastEnd c.nextSpan.start⟩ := by
  refine (?_ : Always read c fun a d => whileMore more Definition.read c = .ok (a.definitions, d) ∧
    a.span = ⟨c.nextSpan.start, max d.lastEnd c.nextSpan.start⟩) a d h
  simp only [read, always_located, always_bind, always_ite, always_pure]
  intro ds d hds
  refine ⟨fun _ => always_fail, fun _ sizeHint e hsize => ?_⟩
  obtain ⟨_, rfl⟩ := hsize
  exact ⟨hds, trivial⟩

/-- A document is cut out without what is ignored about it. -/
theorem severable_read : Severable .document read := by
  have hnil : ∀ ws ds, Definition.Apart ws ds → ds ≠ [] → ws ≠ [] := by
    rintro _ _ (_ | ⟨hd, _, _⟩) hne
    · exact absurd rfl hne
    · simp [Definition.starts.ne_nil hd]
  intro c a d h
  obtain ⟨hdone, ws, hg, ht⟩ := sound_read c a d h
  have hne : ws ≠ [] := by
    cases hg with
    | intro hapart hdefinitions => exact hnil ws _ hapart hdefinitions
  refine ⟨⟨ws, hne, ht, fun c' d' ht' hd' => complete_read hg ht' hd'⟩,
    fun o c' b e hs hmeets h' hw => ?_⟩
  obtain ⟨hread, hspan⟩ := eq_of_read h
  obtain ⟨hread', hspan'⟩ := eq_of_read h'
  obtain ⟨hdefinitions, hde⟩ := (copies_definitions c c' _ e hmeets hread').1 _ d hread hw
    fun hf => hf.elim
  have hlt := hw.lt_of_lt (ht.length_lt hne)
  have hsame := hmeets.span_eq hde hlt
  rw [← hspan, ← hspan'] at hsame
  change Document.mk (moved 0 a.definitions) 0 (a.span.moved 0) =
    Document.mk (moved o.shift b.definitions) 0 (b.span.moved o.shift)
  rw [hdefinitions, hsame, moved_moved, Span.moved_moved]
  rfl

end Document

end GraphQLText
