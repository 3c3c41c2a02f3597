import GraphQLText.Proofs.Reading.Forward

/-!
# The bound on the depth does not matter

Values, types and selections nest, and their readers carry a bound on the depth. Every level takes a
token, so that all bounds above the number of the tokens ahead come to the same.
-/

namespace GraphQLText

set_option autoImplicit false

namespace Reader

variable {α β : Type}

/-- The readers do the same where there are fewer tokens ahead. -/
def AlikeBelow (n : Nat) (r r' : Reader α) : Prop :=
  ∀ c : Cursor, c.tokens.length < n → r c = r' c

namespace AlikeBelow

variable {n : Nat} {r r' : Reader α}

theorem refl (n : Nat) (r : Reader α) : AlikeBelow n r r :=
  fun _ _ => rfl

theorem bind {f f' : α → Reader β} [Forward r] (h : AlikeBelow n r r')
    (hf : ∀ a, AlikeBelow n (f a) (f' a)) : AlikeBelow n (r >>= f) (r' >>= f') := by
  intro c hc
  rw [bind_apply, bind_apply, ← h c hc]
  cases hr : r c with
  | error failure => rfl
  | ok p =>
    have hle := (Forward.reaches c p.1 p.2 hr).length_le
    exact hf p.1 p.2 (by omega)

/-- Behind a token, one fewer is ahead. -/
theorem bind_consuming {f f' : α → Reader β} [Consuming r]
    (hf : ∀ a, AlikeBelow n (f a) (f' a)) : AlikeBelow (n + 1) (r >>= f) (r >>= f') := by
  intro c hc
  rw [bind_apply, bind_apply]
  cases hr : r c with
  | error failure => rfl
  | ok p =>
    have hlt := Consuming.length_lt c p.1 p.2 hr
    exact hf p.1 p.2 (by omega)

theorem map {f : α → β} [Forward r] (h : AlikeBelow n r r') :
    AlikeBelow n (f <$> r) (f <$> r') := by
  rw [← bind_pure_comp, ← bind_pure_comp]
  exact h.bind fun _ => refl n _

theorem located {r r' : Reader (Span → α)} (h : AlikeBelow n r r') :
    AlikeBelow n (located r) (located r') := by
  intro c hc
  unfold Reader.located
  rw [h c hc]

theorem ite {p : Prop} [Decidable p] {s s' : Reader α} (h : AlikeBelow n r r')
    (hs : AlikeBelow n s s') : AlikeBelow n (if p then r else s) (if p then r' else s') := by
  split
  · exact h
  · exact hs

theorem skip_apply {f f' : Unit → Reader α} {c : Cursor} {t : Token} (hn : c.next? = some t)
    (hc : c.tokens.length < n + 1) (hf : AlikeBelow n (f ()) (f' ())) :
    (skip >>= f) c = (skip >>= f') c := by
  have hlen := Cursor.length_advance hn
  exact hf c.advance (by omega)

section Items

variable {item item' : Reader α}

theorem whileMore {more : Reader Bool} [Forward more] (h : AlikeBelow n item item') :
    AlikeBelow n (whileMore more item) (whileMore more item') := by
  intro c hc
  induction hlen : c.tokens.length using Nat.strongRecOn generalizing c with
  | ind m ih =>
    rw [Reader.whileMore, Reader.whileMore]
    cases hm : more c with
    | error failure => rfl
    | ok p =>
      obtain ⟨b, d⟩ := p
      have hle := (Forward.reaches c b d hm).length_le
      cases b with
      | false => rfl
      | true =>
        simp only
        rw [← h d (by omega)]
        cases hi : item d with
        | error failure => rfl
        | ok q =>
          obtain ⟨a, e⟩ := q
          simp only
          split
          · next hlt => rw [ih e.tokens.length (by omega) e (by omega) rfl]
          · rfl

variable [Forward item]

omit [Forward item] in
theorem untilClosed (h : AlikeBelow n item item') (close : Punctuator) :
    AlikeBelow n (untilClosed close item) (untilClosed close item') :=
  h.whileMore

/-- The opening mark is a token, so the items have fewer ahead. -/
theorem enclosed (h : AlikeBelow n item item') (opening close : Punctuator) :
    AlikeBelow (n + 1) (enclosed opening close item) (enclosed opening close item') := by
  intro c hc
  simp only [Reader.enclosed, bind_apply, eat]
  split
  · next a d heq =>
    split at heq
    · next hn =>
      cases heq
      have hlen := Cursor.length_advance hn
      exact (h.bind fun first => (h.untilClosed close).bind fun rest => refl n _) _ (by omega)
    · cases heq
      rfl
  · rfl

theorem bracketed (h : AlikeBelow n item item') (opening close : Punctuator)
    (expected : Construct) :
    AlikeBelow (n + 1) (Bracketed.read opening close expected item)
      (Bracketed.read opening close expected item') :=
  located (bind_consuming fun _ => (h.untilClosed close).bind fun _ => refl n _)

end Items

end AlikeBelow

end Reader

open Reader

theorem NamedValue.alikeBelow {ν : Type} {n : Nat} {value value' : Reader ν} [Forward value]
    (expected : Construct) (h : AlikeBelow n value value') :
    AlikeBelow n (NamedValue.read expected value) (NamedValue.read expected value') :=
  .located ((AlikeBelow.refl n _).bind fun _ => (AlikeBelow.refl n _).bind fun _ =>
    h.bind fun _ => .refl n _)

theorem Value.alikeBelow_readTo (constant : Bool) {n depth depth' : Nat} (h : n ≤ depth)
    (h' : n ≤ depth') : AlikeBelow n (readTo constant depth) (readTo constant depth') := by
  induction n generalizing depth depth' with
  | zero => exact fun c hc => absurd hc (by omega)
  | succ n ih =>
    obtain ⟨m, rfl⟩ : ∃ m, depth = m + 1 := ⟨depth - 1, by omega⟩
    obtain ⟨m', rfl⟩ : ∃ m', depth' = m' + 1 := ⟨depth' - 1, by omega⟩
    have hitem : AlikeBelow n (readTo constant m) (readTo constant m') :=
      ih (by omega) (by omega)
    refine (AlikeBelow.refl _ _).bind fun o => ?_
    split
    all_goals try exact .refl _ _
    · exact (hitem.bracketed _ _ _).map
    · exact ((NamedValue.alikeBelow _ hitem).bracketed _ _ _).map

theorem Value.readTo_eq_read (constant : Bool) (c : Cursor) (depth : Nat)
    (h : c.tokens.length < depth) : readTo constant depth c = read constant c :=
  Value.alikeBelow_readTo constant (n := c.tokens.length + 1) h (Nat.le_refl _) c
    (Nat.lt_succ_self _)

theorem TypeRef.alikeBelow_readTo {n depth depth' : Nat} (h : n ≤ depth) (h' : n ≤ depth') :
    AlikeBelow n (readTo depth) (readTo depth') := by
  induction n generalizing depth depth' with
  | zero => exact fun c hc => absurd hc (by omega)
  | succ n ih =>
    obtain ⟨m, rfl⟩ : ∃ m, depth = m + 1 := ⟨depth - 1, by omega⟩
    obtain ⟨m', rfl⟩ : ∃ m', depth' = m' + 1 := ⟨depth' - 1, by omega⟩
    have hitem : AlikeBelow n (readTo m) (readTo m') := ih (by omega) (by omega)
    refine AlikeBelow.bind (fun c hc => ?_) fun _ => .refl _ _
    simp only [readUnmarked, bind_apply, peek]
    cases hn : c.next? with
    | none => rfl
    | some t =>
      cases t with
      | punctuator p =>
        cases p with
        | openBracket => exact AlikeBelow.skip_apply hn hc (hitem.bind fun _ => .refl _ _)
        | _ => rfl
      | _ => rfl

theorem TypeRef.readTo_eq_read (c : Cursor) (depth : Nat) (h : c.tokens.length < depth) :
    readTo depth c = read c :=
  TypeRef.alikeBelow_readTo (n := c.tokens.length + 1) h (Nat.le_refl _) c (Nat.lt_succ_self _)

section Selections

variable {n : Nat} {selection selection' : Reader Selection} [Forward selection]

theorem SelectionSet.alikeBelow_readOf (h : AlikeBelow n selection selection') :
    AlikeBelow (n + 1) (readOf selection) (readOf selection') := by
  refine (AlikeBelow.refl _ _).bind fun _ => .ite (.located ?_) (.refl _ _)
  exact (h.enclosed _ _).bind fun _ => .refl _ _

theorem SelectionSet.alikeBelow_readBodyOf (expected : Construct)
    (h : AlikeBelow n selection selection') :
    AlikeBelow (n + 1) (readBodyOf expected selection) (readBodyOf expected selection') :=
  (AlikeBelow.refl _ _).bind fun _ => .ite (alikeBelow_readOf h) (.refl _ _)

theorem Field.alikeBelow_readOf (h : AlikeBelow n selection selection') :
    AlikeBelow (n + 1) (readOf selection) (readOf selection') := by
  refine .located ((AlikeBelow.refl _ _).bind fun _ => (AlikeBelow.refl _ _).bind fun _ =>
    (AlikeBelow.refl _ _).bind fun _ => (AlikeBelow.refl _ _).bind fun _ => ?_)
  exact (SelectionSet.alikeBelow_readOf h).bind fun _ => .refl _ _

theorem InlineFragment.alikeBelow_readOf (h : AlikeBelow n selection selection') :
    AlikeBelow (n + 1) (readOf selection) (readOf selection') := by
  refine .located ((AlikeBelow.refl _ _).bind fun _ => (AlikeBelow.refl _ _).bind fun _ =>
    (AlikeBelow.refl _ _).bind fun _ => ?_)
  exact (SelectionSet.alikeBelow_readBodyOf _ h).bind fun _ => .refl _ _

namespace Selection

theorem alikeBelow_readFragmentOf (h : AlikeBelow n selection selection') :
    AlikeBelow (n + 1) (readFragmentOf selection) (readFragmentOf selection') := by
  refine .located ((AlikeBelow.refl _ _).bind fun _ => (AlikeBelow.refl _ _).bind fun o => ?_)
  split
  all_goals try exact .refl _ _
  all_goals exact (InlineFragment.alikeBelow_readOf h).bind fun _ => .refl _ _

omit [Forward selection] in
theorem alikeBelow_readTo {depth depth' : Nat} (h : n ≤ depth) (h' : n ≤ depth') :
    AlikeBelow n (readTo depth) (readTo depth') := by
  induction n generalizing depth depth' with
  | zero => exact fun c hc => absurd hc (by omega)
  | succ n ih =>
    obtain ⟨m, rfl⟩ : ∃ m, depth = m + 1 := ⟨depth - 1, by omega⟩
    obtain ⟨m', rfl⟩ : ∃ m', depth' = m' + 1 := ⟨depth' - 1, by omega⟩
    have hitem : AlikeBelow n (readTo m) (readTo m') := ih (by omega) (by omega)
    refine (AlikeBelow.refl _ _).bind fun o => ?_
    split
    · exact (Field.alikeBelow_readOf hitem).map
    · exact alikeBelow_readFragmentOf hitem
    · exact .refl _ _

omit [Forward selection] in
theorem readTo_eq_read (c : Cursor) (depth : Nat) (h : c.tokens.length < depth) :
    readTo depth c = read c :=
  alikeBelow_readTo (n := c.tokens.length + 1) h (Nat.le_refl _) c (Nat.lt_succ_self _)

end Selection

end Selections

theorem ListValue.alikeBelow_read (constant : Bool) (n : Nat) :
    AlikeBelow (n + 1) (Value.readListOf (Value.readTo constant n)) (ListValue.read constant) :=
  AlikeBelow.bracketed (fun c hc => Value.readTo_eq_read constant c n hc) _ _ _

theorem ObjectValue.alikeBelow_read (constant : Bool) (n : Nat) :
    AlikeBelow (n + 1) (Value.readObjectOf (Value.readTo constant n))
      (ObjectValue.read constant) :=
  AlikeBelow.bracketed (NamedValue.alikeBelow _ fun c hc => Value.readTo_eq_read constant c n hc)
    _ _ _

theorem Value.always_read (constant : Bool) (c : Cursor) : Always (read constant) c fun v d =>
    match v with
    | .variable n => Variable.read c = .ok (n, d)
    | .int n => Literal.readInt c = .ok (n, d)
    | .float n => Literal.readFloat c = .ok (n, d)
    | .string n => StringValue.read c = .ok (n, d)
    | .boolean n => BooleanValue.read c = .ok (n, d)
    | .null => d = c.advance
    | .enum n => Literal.readEnum c = .ok (n, d)
    | .list n => ListValue.read constant c = .ok (n, d)
    | .object n => ObjectValue.read constant c = .ok (n, d) := by
  rw [read, always_nested, readTo, always_bind, always_peek]
  split
  · simp only [always_bind, always_skip, always_pure]
  · exact always_map.mpr fun _ _ h => h
  · exact always_map.mpr fun _ _ h => h
  · exact always_map.mpr fun _ _ h => h
  · rw [always_ite]
    exact ⟨fun _ => always_fail, fun _ => always_map.mpr fun _ _ h => h⟩
  · exact always_map.mpr fun _ _ h => h
  · exact always_map.mpr fun _ _ h => h
  · exact always_map.mpr fun _ _ h => h
  · exact always_map.mpr fun _ _ h => h
  · refine always_map.mpr fun n d h => ?_
    rwa [ListValue.alikeBelow_read constant _ c (Nat.lt_succ_self _)] at h
  · refine always_map.mpr fun n d h => ?_
    rwa [ObjectValue.alikeBelow_read constant _ c (Nat.lt_succ_self _)] at h
  · exact always_fail

section Fragments

variable {selection : Reader Selection} {c d : Cursor}

/-- What may begin with a token is read from that token on exactly as it is read behind the token,
but for the span, which begins at the token. -/
theorem located_eq_ok_iff_advance {α : Type} {r : Reader (Span → α)} {t : Token} {a : α}
    (setSpan : α → Span → α)
    (hr : ∀ e, Always r e fun f _ => ∀ span span', setSpan (f span) span' = f span')
    (hn : c.next? = some t) (hn' : c.advance.next? ≠ some t) :
    located (eat t >>= fun _ => r) c = .ok (a, d) ↔
      ∃ b, located (eat t >>= fun _ => r) c.advance = .ok (b, d) ∧
        setSpan b ⟨c.nextSpan.start, max d.lastEnd c.nextSpan.start⟩ = a := by
  have hat : (eat t >>= fun _ => r) c = r c.advance := by
    rw [bind_apply, eat, if_pos hn]
  have hbehind : (eat t >>= fun _ => r) c.advance = r c.advance := by
    rw [bind_apply, eat, if_neg hn']
  constructor
  · intro h
    obtain ⟨f, hf, rfl⟩ := located_eq_ok.mp h
    rw [hat] at hf
    exact ⟨_, located_eq_ok.mpr ⟨f, hbehind.trans hf, rfl⟩, hr _ f d hf _ _⟩
  · rintro ⟨b, h, rfl⟩
    obtain ⟨f, hf, rfl⟩ := located_eq_ok.mp h
    rw [hbehind] at hf
    exact located_eq_ok.mpr ⟨f, hat.trans hf, (hr _ f d hf _ _).symm⟩

theorem InlineFragment.readOf_eq_ok_iff_advance {f : InlineFragment}
    (hn : c.next? = some (.punctuator .ellipsis))
    (hn' : c.advance.next? ≠ some (.punctuator .ellipsis)) :
    readOf selection c = .ok (f, d) ↔
      ∃ g, readOf selection c.advance = .ok (g, d) ∧
        { g with span := ⟨c.nextSpan.start, max d.lastEnd c.nextSpan.start⟩ } = f := by
  refine located_eq_ok_iff_advance (fun (f : InlineFragment) span => { f with span }) (fun e => ?_)
    hn hn'
  simp only [always_bind, always_pure]
  exact fun _ _ _ _ _ _ _ _ _ _ _ => trivial

theorem FragmentSpread.read_eq_ok_iff_advance {s : FragmentSpread}
    (hn : c.next? = some (.punctuator .ellipsis))
    (hn' : c.advance.next? ≠ some (.punctuator .ellipsis)) :
    read c = .ok (s, d) ↔
      ∃ g, read c.advance = .ok (g, d) ∧
        { g with span := ⟨c.nextSpan.start, max d.lastEnd c.nextSpan.start⟩ } = s := by
  refine located_eq_ok_iff_advance (fun (s : FragmentSpread) span => { s with span }) (fun e => ?_)
    hn hn'
  simp only [always_bind, always_at?, always_ite, always_relabel, always_pure]
  exact ⟨fun _ => always_fail, fun _ _ _ _ _ _ _ _ _ => trivial⟩

/-- A fragment is read by the reader of its kind, too, which takes the ellipsis itself. -/
theorem Selection.always_readFragmentOf (hn : c.next? = some (.punctuator .ellipsis)) :
    Always (readFragmentOf selection) c fun s d =>
      match s with
      | .field _ => False
      | .spread n => FragmentSpread.read c = .ok (n, d)
      | .inline n => InlineFragment.readOf selection c = .ok (n, d) := by
  have hinline : c.advance.next? ≠ some (.punctuator .ellipsis) →
      Always (InlineFragment.readOf selection) c.advance fun f d =>
        InlineFragment.readOf selection c =
          .ok ({ f with span := ⟨c.nextSpan.start, max d.lastEnd c.nextSpan.start⟩ }, d) :=
    fun hn' f d hf => (InlineFragment.readOf_eq_ok_iff_advance hn hn').mpr ⟨f, hf, rfl⟩
  have hspread : c.advance.next? ≠ some (.punctuator .ellipsis) →
      Always FragmentSpread.read c.advance fun s d =>
        FragmentSpread.read c =
          .ok ({ s with span := ⟨c.nextSpan.start, max d.lastEnd c.nextSpan.start⟩ }, d) :=
    fun hn' s d hs => (FragmentSpread.read_eq_ok_iff_advance hn hn').mpr ⟨s, hs, rfl⟩
  rw [readFragmentOf, always_located, always_bind, always_skip, always_bind, always_peek]
  split
  · next hat =>
    simp only [always_bind, always_pure]
    exact hinline (by simp [hat])
  · next hbrace =>
    simp only [always_bind, always_pure]
    exact hinline (by simp [hbrace])
  · next hon =>
    simp only [always_bind, always_pure]
    exact hinline (by simp [hon])
  · next hname =>
    simp only [always_bind, always_pure]
    exact hspread (by simp [hname])
  · exact always_fail

/-- A selection is read as what it is, a fragment from its ellipsis on. -/
theorem Selection.always_read (c : Cursor) : Always read c fun s d =>
    match s with
    | .field n => Field.read c = .ok (n, d)
    | .spread n =>
      c.next? = some (.punctuator .ellipsis) ∧ FragmentSpread.read c = .ok (n, d)
    | .inline n =>
      c.next? = some (.punctuator .ellipsis) ∧ InlineFragment.read c = .ok (n, d) := by
  have hselection : AlikeBelow c.tokens.length (readTo c.tokens.length) read :=
    fun e he => readTo_eq_read e _ he
  rw [read, always_nested, readTo, always_bind, always_peek]
  split
  · refine always_map.mpr fun n d h => ?_
    rwa [Field.alikeBelow_readOf hselection c (Nat.lt_succ_self _)] at h
  · next hn =>
    refine (always_readFragmentOf hn).mono fun s d h => ?_
    cases s with
    | field n => exact h.elim
    | spread n => exact ⟨hn, h⟩
    | «inline» n =>
      refine ⟨hn, ?_⟩
      simp only at h
      rwa [InlineFragment.alikeBelow_readOf hselection c (Nat.lt_succ_self _)] at h
  · exact always_fail

end Fragments

end GraphQLText
