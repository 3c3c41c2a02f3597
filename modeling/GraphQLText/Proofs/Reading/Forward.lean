import GraphQLText.Proofs.Reading.Document

/-!
# Readers go forward

No reader goes back: the place where it stops, or where it fails, is reached from the place where it
started by reading on. Most readers do not succeed without reading a token. Both properties are
classes, so that they are found from the text of a reader.
-/

namespace GraphQLText

set_option autoImplicit false

namespace Cursor

def Reaches (c d : Cursor) : Prop :=
  ∃ ws, c.Takes ws d

theorem Reaches.refl (c : Cursor) : c.Reaches c :=
  ⟨[], rfl⟩

theorem Reaches.trans {c d e : Cursor} (hcd : c.Reaches d) (hde : d.Reaches e) : c.Reaches e := by
  obtain ⟨us, hu⟩ := hcd
  obtain ⟨vs, hv⟩ := hde
  exact ⟨us ++ vs, hu.append hv⟩

theorem Reaches.length_le {c d : Cursor} (h : c.Reaches d) : d.tokens.length ≤ c.tokens.length := by
  obtain ⟨ws, ht⟩ := h
  have hlen := ht.length
  omega

theorem reaches_advance (c : Cursor) : c.Reaches c.advance := by
  cases hn : c.next? with
  | some t => exact ⟨[.need t], hn, rfl⟩
  | none =>
    obtain ⟨tokens, ending, lastEnd⟩ := c
    cases tokens with
    | nil => exact .refl _
    | cons t tokens => simp [next?] at hn

end Cursor

namespace Reader

variable {α β : Type}

/-- The reader never goes back. -/
class Forward (r : Reader α) : Prop where
  reaches : ∀ c a d, r c = .ok (a, d) → c.Reaches d
  reaches_place : ∀ c f, r c = .error f → c.Reaches f.place

/-- The reader does not succeed without reading a token. -/
class Consuming (r : Reader α) : Prop where
  length_lt : ∀ c a d, r c = .ok (a, d) → d.tokens.length < c.tokens.length

theorem bind_eq_ok {r : Reader α} {f : α → Reader β} {c e : Cursor} {b : β} :
    (r >>= f) c = .ok (b, e) ↔ ∃ a d, r c = .ok (a, d) ∧ f a d = .ok (b, e) := by
  rw [bind_apply]
  cases r c with
  | ok p =>
    constructor
    · intro h
      exact ⟨p.1, p.2, rfl, h⟩
    · rintro ⟨a, d, ⟨⟩, h⟩
      exact h
  | error failure => simp

theorem bind_eq_error {r : Reader α} {f : α → Reader β} {c : Cursor} {failure : Failure} :
    (r >>= f) c = .error failure ↔
      r c = .error failure ∨ ∃ a d, r c = .ok (a, d) ∧ f a d = .error failure := by
  rw [bind_apply]
  cases r c with
  | ok p =>
    constructor
    · intro h
      exact .inr ⟨p.1, p.2, rfl, h⟩
    · rintro (h | ⟨a, d, ⟨⟩, h⟩)
      · cases h
      · exact h
  | error failure => simp

instance Forward.bind {r : Reader α} {f : α → Reader β} [Forward r] [∀ a, Forward (f a)] :
    Forward (r >>= f) where
  reaches c b e h := by
    obtain ⟨a, d, hr, hf⟩ := bind_eq_ok.mp h
    exact (Forward.reaches c a d hr).trans (Forward.reaches d b e hf)
  reaches_place c failure h := by
    rcases bind_eq_error.mp h with hr | ⟨a, d, hr, hf⟩
    · exact Forward.reaches_place c failure hr
    · exact (Forward.reaches c a d hr).trans (Forward.reaches_place d failure hf)

instance Consuming.bind_left {r : Reader α} {f : α → Reader β} [Consuming r]
    [∀ a, Forward (f a)] : Consuming (r >>= f) where
  length_lt c b e h := by
    obtain ⟨a, d, hr, hf⟩ := bind_eq_ok.mp h
    have hlt := Consuming.length_lt c a d hr
    have hle := (Forward.reaches d b e hf).length_le
    omega

instance Consuming.bind_right {r : Reader α} {f : α → Reader β} [Forward r]
    [∀ a, Consuming (f a)] : Consuming (r >>= f) where
  length_lt c b e h := by
    obtain ⟨a, d, hr, hf⟩ := bind_eq_ok.mp h
    have hle := (Forward.reaches c a d hr).length_le
    have hlt := Consuming.length_lt d b e hf
    omega

instance Forward.pure (a : α) : Forward (pure a : Reader α) where
  reaches := by
    rintro c b d ⟨⟩
    exact .refl c
  reaches_place := by
    rintro c f ⟨⟩

instance Forward.map {r : Reader α} {f : α → β} [Forward r] : Forward (f <$> r) := by
  rw [← bind_pure_comp]
  infer_instance

instance Consuming.map {r : Reader α} {f : α → β} [Consuming r] : Consuming (f <$> r) := by
  rw [← bind_pure_comp]
  infer_instance

instance Forward.ite {p : Prop} [Decidable p] {r s : Reader α} [Forward r] [Forward s] :
    Forward (if p then r else s) := by
  split <;> assumption

instance Consuming.ite {p : Prop} [Decidable p] {r s : Reader α} [Consuming r] [Consuming s] :
    Consuming (if p then r else s) := by
  split <;> assumption

instance Forward.fail (expected : Construct) : Forward (fail expected : Reader α) where
  reaches := by
    rintro c a d ⟨⟩
  reaches_place := by
    rintro c f ⟨⟩
    exact .refl c

instance Consuming.fail (expected : Construct) : Consuming (fail expected : Reader α) where
  length_lt := by
    rintro c a d ⟨⟩

instance : Forward peek where
  reaches := by
    rintro c a d ⟨⟩
    exact .refl c
  reaches_place := by
    rintro c f ⟨⟩

instance : Forward skip where
  reaches := by
    rintro c a d ⟨⟩
    exact c.reaches_advance
  reaches_place := by
    rintro c f ⟨⟩

instance : Forward nextStart where
  reaches := by
    rintro c a d ⟨⟩
    exact .refl c
  reaches_place := by
    rintro c f ⟨⟩

instance (t : Token) : Forward (at? t) where
  reaches := by
    rintro c a d ⟨⟩
    exact .refl c
  reaches_place := by
    rintro c f ⟨⟩

instance (t : Token) : Forward (eat t) where
  reaches c a d h := by
    unfold eat at h
    split at h <;> cases h
    · exact c.reaches_advance
    · exact .refl c
  reaches_place c f h := by
    unfold eat at h
    split at h <;> cases h

section Tokens

variable {expected : Construct}

instance Forward.token {accept : Token → Option α} : Forward (token expected accept) where
  reaches c a d h := by
    unfold Reader.token at h
    split at h <;> cases h
    exact c.reaches_advance
  reaches_place c f h := by
    unfold Reader.token at h
    split at h <;> cases h
    exact .refl c

instance Consuming.token {accept : Token → Option α} : Consuming (token expected accept) where
  length_lt c a d h := by
    unfold Reader.token at h
    split at h
    · next heq =>
      obtain ⟨t, hn, _⟩ := Option.bind_eq_some_iff.mp heq
      cases h
      have hlen := Cursor.length_advance hn
      omega
    · cases h

instance (t : Token) : Forward (expect t expected) :=
  Forward.token

instance (t : Token) : Consuming (expect t expected) :=
  Consuming.token

instance : Forward (nameToken expected) :=
  Forward.token

instance : Consuming (nameToken expected) :=
  Consuming.token

end Tokens

section Parts

variable {r : Reader α}

theorem located_eq_ok {r : Reader (Span → α)} {c d : Cursor} {a : α} :
    located r c = .ok (a, d) ↔
      ∃ node, r c = .ok (node, d) ∧ node ⟨c.nextSpan.start, max d.lastEnd c.nextSpan.start⟩ = a := by
  unfold located
  cases r c with
  | ok p =>
    obtain ⟨node, e⟩ := p
    constructor
    · rintro ⟨⟩
      exact ⟨node, rfl, rfl⟩
    · rintro ⟨_, ⟨⟩, rfl⟩
      rfl
  | error failure => simp [bind, Except.bind]

theorem located_eq_error {r : Reader (Span → α)} {c : Cursor} {failure : Failure} :
    located r c = .error failure ↔ r c = .error failure := by
  unfold located
  cases r c with
  | ok p => simp [bind, Except.bind]
  | error f => simp [bind, Except.bind]

instance Forward.located {r : Reader (Span → α)} [Forward r] : Forward (located r) where
  reaches c a d h := by
    obtain ⟨node, hr, _⟩ := located_eq_ok.mp h
    exact Forward.reaches c node d hr
  reaches_place c f h := Forward.reaches_place c f (located_eq_error.mp h)

instance Consuming.located {r : Reader (Span → α)} [Consuming r] : Consuming (located r) where
  length_lt c a d h := by
    obtain ⟨node, hr, _⟩ := located_eq_ok.mp h
    exact Consuming.length_lt c node d hr

theorem relabel_eq_ok {expected : Construct} {c d : Cursor} {a : α} :
    relabel expected r c = .ok (a, d) ↔ r c = .ok (a, d) := by
  unfold relabel
  cases r c <;> simp

theorem relabel_eq_error {expected : Construct} {c : Cursor} {failure : Failure}
    (h : relabel expected r c = .error failure) :
    ∃ f, r c = .error f ∧ f.place = failure.place := by
  unfold relabel at h
  cases hr : r c with
  | ok p => simp [hr] at h
  | error f =>
    simp only [hr] at h
    cases h
    exact ⟨f, rfl, rfl⟩

instance Forward.relabel {expected : Construct} [Forward r] : Forward (relabel expected r) where
  reaches c a d h := Forward.reaches c a d (relabel_eq_ok.mp h)
  reaches_place c f h := by
    obtain ⟨f', hr, hplace⟩ := relabel_eq_error h
    exact hplace ▸ Forward.reaches_place c f' hr

instance Consuming.relabel {expected : Construct} [Consuming r] :
    Consuming (relabel expected r) where
  length_lt c a d h := Consuming.length_lt c a d (relabel_eq_ok.mp h)

instance Forward.nested {read : Nat → Reader α} [∀ depth, Forward (read depth)] :
    Forward (nested read) where
  reaches c a d h := Forward.reaches (r := read (c.tokens.length + 1)) c a d h
  reaches_place c f h := Forward.reaches_place (r := read (c.tokens.length + 1)) c f h

instance Consuming.nested {read : Nat → Reader α} [∀ depth, Consuming (read depth)] :
    Consuming (nested read) where
  length_lt c a d h := Consuming.length_lt (r := read (c.tokens.length + 1)) c a d h

instance Forward.endOfInput : Forward endOfInput where
  reaches c a d h := by
    unfold Reader.endOfInput at h
    split at h <;> cases h
    exact .refl c
  reaches_place c f h := by
    unfold Reader.endOfInput at h
    split at h <;> cases h
    exact .refl c

instance Forward.whole [Forward r] : Forward (whole r) := by
  unfold Reader.whole
  infer_instance

section Items

variable {more : Reader Bool} {item : Reader α}

/-- Items have been read: there was none, or one and then the rest. -/
theorem whileMore_eq_ok {c last : Cursor} {as : List α} :
    whileMore more item c = .ok (as, last) ↔
      (more c = .ok (false, last) ∧ as = []) ∨
        ∃ d a e, more c = .ok (true, d) ∧ item d = .ok (a, e) ∧
          if e.tokens.length < c.tokens.length then
            ∃ bs, whileMore more item e = .ok (bs, last) ∧ as = a :: bs
          else as = [a] ∧ last = e := by
  rw [whileMore_apply, bind_eq_ok]
  constructor
  · rintro ⟨b, d, hm, h⟩
    cases b with
    | false =>
      obtain ⟨rfl, rfl⟩ := h
      exact .inl ⟨hm, rfl⟩
    | true =>
      obtain ⟨a, e, hi, hrest⟩ := bind_eq_ok.mp h
      refine .inr ⟨d, a, e, hm, hi, ?_⟩
      split at hrest
      · next hlt =>
        rw [← bind_pure_comp, bind_eq_ok] at hrest
        obtain ⟨bs, _, hw, ⟨⟩⟩ := hrest
        rw [if_pos hlt]
        exact ⟨bs, hw, rfl⟩
      · next hlt =>
        obtain ⟨rfl, rfl⟩ := hrest
        rw [if_neg hlt]
        exact ⟨rfl, rfl⟩
  · rintro (⟨hm, rfl⟩ | ⟨d, a, e, hm, hi, hrest⟩)
    · exact ⟨false, last, hm, rfl⟩
    · refine ⟨true, d, hm, bind_eq_ok.mpr ⟨a, e, hi, ?_⟩⟩
      split at hrest
      · next hlt =>
        obtain ⟨bs, hw, rfl⟩ := hrest
        rw [if_pos hlt, ← bind_pure_comp, bind_eq_ok]
        exact ⟨bs, last, hw, rfl⟩
      · next hlt =>
        obtain ⟨rfl, rfl⟩ := hrest
        rw [if_neg hlt]

/-- Items could not be read: it could not be told whether there is one, or there was a bad one. -/
theorem whileMore_eq_error {c : Cursor} {failure : Failure} :
    whileMore more item c = .error failure ↔
      more c = .error failure ∨
        ∃ d, more c = .ok (true, d) ∧ (item d = .error failure ∨
          ∃ a e, item d = .ok (a, e) ∧ e.tokens.length < c.tokens.length ∧
            whileMore more item e = .error failure) := by
  rw [whileMore_apply, bind_eq_error]
  refine or_congr_right ?_
  constructor
  · rintro ⟨b, d, hm, h⟩
    cases b with
    | false => cases h
    | true =>
      refine ⟨d, hm, ?_⟩
      rcases bind_eq_error.mp h with hi | ⟨a, e, hi, hrest⟩
      · exact .inl hi
      · split at hrest
        · next hlt =>
          rw [← bind_pure_comp, bind_eq_error] at hrest
          rcases hrest with hw | ⟨_, _, _, ⟨⟩⟩
          exact .inr ⟨a, e, hi, hlt, hw⟩
        · cases hrest
  · rintro ⟨d, hm, hi | ⟨a, e, hi, hlt, hw⟩⟩
    · exact ⟨true, d, hm, bind_eq_error.mpr (.inl hi)⟩
    · refine ⟨true, d, hm, bind_eq_error.mpr (.inr ⟨a, e, hi, ?_⟩)⟩
      rw [if_pos hlt, ← bind_pure_comp, bind_eq_error]
      exact .inl hw

instance Forward.whileMore [Forward more] [Forward item] : Forward (whileMore more item) := by
  have hrun : ∀ n, ∀ c : Cursor, c.tokens.length = n →
      (∀ as d, Reader.whileMore more item c = .ok (as, d) → c.Reaches d) ∧
        ∀ f, Reader.whileMore more item c = .error f → c.Reaches f.place := by
    intro n
    induction n using Nat.strongRecOn with
    | ind n ih =>
      rintro c rfl
      constructor
      · intro as last h
        rcases whileMore_eq_ok.mp h with ⟨hm, _⟩ | ⟨d, a, e, hm, hi, hrest⟩
        · exact Forward.reaches c false last hm
        · have hce := (Forward.reaches c true d hm).trans (Forward.reaches d a e hi)
          split at hrest
          · next hlt =>
            obtain ⟨bs, hw, _⟩ := hrest
            exact hce.trans ((ih _ hlt e rfl).1 bs last hw)
          · exact hrest.2 ▸ hce
      · intro f h
        rcases whileMore_eq_error.mp h with hm | ⟨d, hm, hi | ⟨a, e, hi, hlt, hw⟩⟩
        · exact Forward.reaches_place c f hm
        · exact (Forward.reaches c true d hm).trans (Forward.reaches_place d f hi)
        · have hce := (Forward.reaches c true d hm).trans (Forward.reaches d a e hi)
          exact hce.trans ((ih _ hlt e rfl).2 f hw)
  exact ⟨fun c => (hrun _ c rfl).1, fun c => (hrun _ c rfl).2⟩

end Items

variable {item : Reader α}

instance (close : Punctuator) [Forward item] : Forward (untilClosed close item) := by
  unfold untilClosed
  infer_instance

instance (opening close : Punctuator) [Forward item] :
    Forward (enclosed opening close item) := by
  unfold enclosed
  infer_instance

instance (separator : Punctuator) [Forward item] : Forward (separated separator item) := by
  unfold separated
  infer_instance

instance (t : Token) [Forward r] : Forward (behind? t r) := by
  unfold behind?
  infer_instance

end Parts

end Reader

open Reader

/-- A reader that takes phrases takes tokens if no phrase is empty. -/
theorem Reader.Sound.consuming {α : Type} {r : Reader α} {G : Phrase → α → Prop}
    (h : Sound r G) (hne : ∀ ws a, G ws a → ws ≠ []) : Consuming r where
  length_lt c a d hr := by
    obtain ⟨ws, hg, ht⟩ := h c a d hr
    exact ht.length_lt (hne ws a hg)

section Values

instance : Forward TypeName.read := by
  unfold TypeName.read
  infer_instance

instance : Consuming TypeName.read := by
  unfold TypeName.read
  infer_instance

instance : Forward Variable.read := by
  unfold Variable.read
  infer_instance

instance : Consuming Variable.read := by
  unfold Variable.read
  infer_instance

instance : Forward BooleanValue.read := by
  unfold BooleanValue.read
  infer_instance

instance : Forward StringValue.read := by
  unfold StringValue.read
  infer_instance

instance : Consuming StringValue.read := by
  unfold StringValue.read
  infer_instance

instance : Forward Literal.readInt := by
  unfold Literal.readInt
  infer_instance

instance : Forward Literal.readFloat := by
  unfold Literal.readFloat
  infer_instance

instance : Forward Literal.readEnum := by
  unfold Literal.readEnum
  infer_instance

instance {ν : Type} (expected : Construct) (value : Reader ν) [Forward value] :
    Forward (NamedValue.read expected value) := by
  unfold NamedValue.read
  infer_instance

instance {ν : Type} (expected : Construct) (value : Reader ν) [Forward value] :
    Consuming (NamedValue.read expected value) := by
  unfold NamedValue.read
  infer_instance

instance {α : Type} (opening close : Punctuator) (expected : Construct) (item : Reader α)
    [Forward item] : Forward (Bracketed.read opening close expected item) := by
  unfold Bracketed.read
  infer_instance

instance Value.forward_readTo (constant : Bool) (depth : Nat) :
    Forward (Value.readTo constant depth) := by
  induction depth with
  | zero => exact Forward.fail _
  | succ depth ih =>
    refine @Forward.bind _ _ _ _ inferInstance fun o => ?_
    unfold Value.readListOf Value.readObjectOf
    split <;> infer_instance

instance (constant : Bool) : Forward (Value.read constant) := by
  unfold Value.read
  infer_instance

instance (constant : Bool) (depth : Nat) : Consuming (Value.readTo constant depth) :=
  (Value.sound_readTo constant depth).consuming fun _ _ => (Value.starts constant).ne_nil

instance (constant : Bool) : Consuming (Value.read constant) := by
  unfold Value.read
  infer_instance

instance (constant : Bool) : Forward (Argument.readAll constant) := by
  unfold Argument.readAll Argument.read
  infer_instance

instance : Forward Value.readDefault? := by
  unfold Value.readDefault?
  infer_instance

instance (constant : Bool) : Forward (Directive.read constant) := by
  unfold Directive.read
  infer_instance

instance (constant : Bool) : Consuming (Directive.read constant) := by
  unfold Directive.read
  infer_instance

instance (constant : Bool) : Forward (Directive.readAll constant) := by
  unfold Directive.readAll
  infer_instance

instance (inner : Reader TypeRef) [Forward inner] : Forward (TypeRef.readUnmarked inner) := by
  refine @Forward.bind _ _ _ _ inferInstance fun o => ?_
  split <;> infer_instance

instance (inner : Reader TypeRef) [Forward inner] : Consuming (TypeRef.readUnmarked inner) := by
  refine @Consuming.bind_right _ _ _ _ inferInstance fun o => ?_
  split <;> infer_instance

instance TypeRef.forward_readTo (depth : Nat) : Forward (TypeRef.readTo depth) := by
  induction depth with
  | zero => exact Forward.fail _
  | succ depth ih =>
    unfold TypeRef.readTo
    infer_instance

instance : Forward TypeRef.read := by
  unfold TypeRef.read
  infer_instance

theorem TypeRef.Derives.ne_nil {ws : Phrase} {t : TypeRef} (h : TypeRef.Derives ws t) :
    ws ≠ [] := by
  cases h with
  | named hn => cases hn; simp
  | list _ => simp
  | nonNull _ _ => simp

instance : Consuming TypeRef.read :=
  TypeRef.sound_read.consuming fun _ _ h => h.ne_nil

end Values

/-- Reads selections whose opening brace must be ahead. -/
def SelectionSet.readBraced (selection : Reader Selection) : Reader SelectionSet :=
  located do
    expect (.punctuator .openBrace) .selection
    let first ← selection
    let rest ← untilClosed .closeBrace selection
    return fun span => { items := first :: rest, span }

theorem SelectionSet.readOf_eq (selection : Reader Selection) :
    readOf selection = (at? (.punctuator .openBrace) >>= fun found =>
      if found = true then readBraced selection else pure Bracketed.absent) := by
  funext c
  simp only [readOf, bind_apply, at?]
  by_cases hn : c.next? = some (.punctuator .openBrace)
  · have heat : eat (.punctuator .openBrace) c = .ok (true, c.advance) := if_pos hn
    have hexpect : expect (.punctuator .openBrace) .selection c = .ok ((), c.advance) := by
      simp [expect, token, hn]
    simp only [hn, beq_self_eq_true, if_true, readBraced, located, enclosed, bind_apply, heat,
      hexpect]
    cases selection c.advance with
    | error failure => rfl
    | ok p =>
      obtain ⟨first, d⟩ := p
      simp only
      cases untilClosed .closeBrace selection d <;> rfl
  · simp [hn]

section Executable

variable {selection : Reader Selection} [Forward selection]

instance : Forward (SelectionSet.readBraced selection) := by
  unfold SelectionSet.readBraced
  infer_instance

instance : Consuming (SelectionSet.readBraced selection) := by
  unfold SelectionSet.readBraced
  infer_instance

instance : Forward (SelectionSet.readOf selection) := by
  rw [SelectionSet.readOf_eq]
  infer_instance

omit [Forward selection] in
theorem SelectionSet.readBodyOf_eq (expected : Construct) (selection : Reader Selection) :
    readBodyOf expected selection = (at? (.punctuator .openBrace) >>= fun found =>
      if found = true then readBraced selection else fail expected) := by
  funext c
  simp only [readBodyOf, readOf_eq, bind_apply, at?]
  by_cases hn : c.next? = some (.punctuator .openBrace) <;> simp [hn, bind_apply, at?]

instance (expected : Construct) : Forward (SelectionSet.readBodyOf expected selection) := by
  rw [SelectionSet.readBodyOf_eq]
  infer_instance

instance (expected : Construct) : Consuming (SelectionSet.readBodyOf expected selection) := by
  rw [SelectionSet.readBodyOf_eq]
  infer_instance

instance : Forward (Field.readOf selection) := by
  unfold Field.readOf
  infer_instance

instance : Forward FragmentSpread.read := by
  unfold FragmentSpread.read
  infer_instance

instance : Consuming FragmentSpread.read := by
  unfold FragmentSpread.read
  infer_instance

instance : Forward (InlineFragment.readOf selection) := by
  unfold InlineFragment.readOf
  infer_instance

instance : Consuming (InlineFragment.readOf selection) := by
  unfold InlineFragment.readOf
  infer_instance

instance : Forward (Selection.readFragmentOf selection) := by
  refine @Forward.located _ _ (@Forward.bind _ _ _ _ inferInstance fun _ =>
    @Forward.bind _ _ _ _ inferInstance fun o => ?_)
  split <;> infer_instance

omit [Forward selection] in
instance Selection.forward_readTo (depth : Nat) : Forward (Selection.readTo depth) := by
  induction depth with
  | zero => exact Forward.fail _
  | succ depth ih =>
    refine @Forward.bind _ _ _ _ inferInstance fun o => ?_
    split <;> infer_instance

omit [Forward selection] in
instance Selection.consuming_readTo (depth : Nat) : Consuming (Selection.readTo depth) :=
  (Selection.sound_readTo depth).consuming fun _ _ => Selection.starts.ne_nil

omit [Forward selection] in
instance : Forward Selection.read := by
  unfold Selection.read
  infer_instance

omit [Forward selection] in
instance : Consuming Selection.read := by
  unfold Selection.read
  infer_instance

end Executable

section Operations

instance : Forward OperationKind.read := by
  unfold OperationKind.read
  infer_instance

instance : Consuming OperationKind.read := by
  unfold OperationKind.read
  infer_instance

instance : Forward VariableDefinition.read := by
  unfold VariableDefinition.read
  infer_instance

instance : Consuming VariableDefinition.read := by
  unfold VariableDefinition.read
  infer_instance

instance : Forward VariableDefinition.readAll := by
  unfold VariableDefinition.readAll
  infer_instance

instance : Forward OperationDefinition.readName? := by
  refine @Forward.bind _ _ _ _ inferInstance fun o => ?_
  split <;> infer_instance

instance : Forward OperationDefinition.readLong := by
  unfold OperationDefinition.readLong
  infer_instance

instance : Forward SelectionSet.read := by
  unfold SelectionSet.read
  infer_instance

def OperationDefinition.readBraced : Reader OperationDefinition :=
  located do
    let selections ← SelectionSet.readBraced Selection.read
    return fun span => ⟨.query, none, [], [], selections, span⟩

instance : Forward OperationDefinition.readBraced := by
  unfold OperationDefinition.readBraced
  infer_instance

instance : Consuming OperationDefinition.readBraced := by
  unfold OperationDefinition.readBraced
  infer_instance

theorem OperationDefinition.read_eq :
    read = (at? (.punctuator .openBrace) >>= fun found =>
      if found = true then readBraced else readLong) := by
  funext c
  simp only [read, readShorthand, readBraced, SelectionSet.read, SelectionSet.readOf_eq, bind_apply,
    at?]
  by_cases hn : c.next? = some (.punctuator .openBrace) <;> simp [hn, located, bind_apply, at?]

instance : Forward OperationDefinition.read := by
  rw [OperationDefinition.read_eq]
  infer_instance

instance : Forward FragmentDefinition.read := by
  unfold FragmentDefinition.read
  infer_instance

end Operations

section TypeSystem

instance : Forward StringValue.readDescription? := by
  refine @Forward.bind _ _ _ _ inferInstance fun o => ?_
  split <;> infer_instance

instance : Forward InputValueDefinition.read := by
  unfold InputValueDefinition.read
  infer_instance

instance : Consuming InputValueDefinition.read := by
  unfold InputValueDefinition.read
  infer_instance

instance : Forward InputValueDefinition.readArguments := by
  unfold InputValueDefinition.readArguments
  infer_instance

instance : Forward InputValueDefinition.readFields := by
  unfold InputValueDefinition.readFields
  infer_instance

instance (constant : Bool) : Forward (FieldDefinition.read constant) := by
  unfold FieldDefinition.read
  infer_instance

instance (constant : Bool) : Consuming (FieldDefinition.read constant) := by
  unfold FieldDefinition.read
  infer_instance

instance (constant : Bool) : Forward (FieldDefinition.readAll constant) := by
  unfold FieldDefinition.readAll
  infer_instance

instance (constant : Bool) : Forward (EnumValueDefinition.read constant) := by
  unfold EnumValueDefinition.read
  infer_instance

instance (constant : Bool) : Consuming (EnumValueDefinition.read constant) := by
  unfold EnumValueDefinition.read
  infer_instance

instance (constant : Bool) : Forward (EnumValueDefinition.readAll constant) := by
  unfold EnumValueDefinition.readAll
  infer_instance

instance (introducer : Token) (separator : Punctuator) :
    Forward (TypeName.readListBehind introducer separator) := by
  unfold TypeName.readListBehind
  infer_instance

instance : Forward TypeName.readInterfaces := by
  unfold TypeName.readInterfaces
  infer_instance

instance : Forward TypeName.readMembers := by
  unfold TypeName.readMembers
  infer_instance

instance (kind : TypeKind) : Forward (TypeContent.readWithDirectives kind) := by
  unfold TypeContent.readWithDirectives
  cases kind <;> infer_instance

instance (kind : TypeKind) (description : Option StringValue) :
    Forward (TypeDefinition.readBody kind description) := by
  unfold TypeDefinition.readBody
  infer_instance

instance (kind : TypeKind) (description : Option StringValue) :
    Consuming (TypeDefinition.readBody kind description) := by
  unfold TypeDefinition.readBody
  infer_instance

instance : Forward RootOperationType.read := by
  unfold RootOperationType.read
  infer_instance

instance : Consuming RootOperationType.read := by
  unfold RootOperationType.read
  infer_instance

instance : Forward RootOperationType.readAll := by
  unfold RootOperationType.readAll
  infer_instance

instance (description : Option StringValue) : Forward (SchemaDefinition.readParts description) := by
  unfold SchemaDefinition.readParts
  infer_instance

instance (description : Option StringValue) : Forward (SchemaDefinition.readBody description) := by
  unfold SchemaDefinition.readBody
  infer_instance

instance : Forward DirectiveLocation.read := by
  unfold DirectiveLocation.read
  infer_instance

instance : Consuming DirectiveLocation.read := by
  unfold DirectiveLocation.read
  infer_instance

instance : Forward DirectiveLocation.readAll := by
  unfold DirectiveLocation.readAll
  infer_instance

instance (description : Option StringValue) :
    Forward (DirectiveDefinition.readBody description) := by
  unfold DirectiveDefinition.readBody
  infer_instance

end TypeSystem

section Documents

instance : Forward Definition.readTypeSystem := by
  refine @Forward.located _ _ (@Forward.bind _ _ _ _ inferInstance fun _ =>
    @Forward.bind _ _ _ _ inferInstance fun part => ?_)
  cases part <;> infer_instance

instance : Forward Definition.readExtension := by
  refine @Forward.located _ _ (@Forward.bind _ _ _ _ inferInstance fun _ =>
    @Forward.bind _ _ _ _ inferInstance fun kind => ?_)
  cases kind <;> infer_instance

instance : Forward Definition.read := by
  refine @Forward.bind _ _ _ _ inferInstance fun o => ?_
  split <;> infer_instance

instance : Consuming Definition.read := by
  refine ⟨fun c d e h => ?_⟩
  obtain ⟨_, ws, hg, ht⟩ := Definition.sound_read c d e h
  exact ht.length_lt (Definition.starts.ne_nil hg)

instance : Forward Document.more where
  reaches := by
    rintro c b d ⟨⟩
    exact .refl c
  reaches_place := by
    rintro c f ⟨⟩

instance : Forward Document.read := by
  unfold Document.read
  infer_instance

end Documents

end GraphQLText
