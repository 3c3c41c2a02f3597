import GraphQLText.Proofs.Locality.Depth

/-!
# Recursion without a bound

A value, a type or a selection is read by one step that reads those within it in the same way. What
was seen ahead is taken as the token that it is, so that every call stands behind a token.
-/

namespace GraphQLText

set_option autoImplicit false

open Reader

namespace Reader

variable {α : Type}

/-- A token that was seen ahead may as well be required. -/
theorem skip_eq_expect {f : Unit → Reader α} {c : Cursor} {t : Token} (hn : c.next? = some t)
    (expected : Construct) : (skip >>= f) c = (expect t expected >>= f) c := by
  simp [bind_apply, skip, expect, token, hn]

/-- What is done after a look ahead depends on what is seen. -/
theorem peek_congr {f g : Option Token → Reader α} {c : Cursor}
    (h : ∀ o, c.next? = o → f o c = g o c) : (peek >>= f) c = (peek >>= g) c :=
  h _ rfl

theorem located_congr {r r' : Reader (Span → α)} {c : Cursor} (h : r c = r' c) :
    located r c = located r' c := by
  unfold located
  rw [h]

end Reader

namespace Value

/-- Reads a value within which others are read as given. -/
def readStep (constant : Bool) (value : Reader Value) : Reader Value := do
  match ← peek with
  | some (.name "null") =>
    expect (.name "null") .value
    return .null
  | some (.name "true") | some (.name "false") => boolean <$> BooleanValue.read
  | some (.name _) => enum <$> Literal.readEnum
  | some (.punctuator .dollar) =>
    if constant then fail .constantValue else .variable <$> Variable.read
  | some (.float _) => float <$> Literal.readFloat
  | some (.int _) => int <$> Literal.readInt
  | some (.string _) | some (.blockString _) => string <$> StringValue.read
  | some (.punctuator .openBracket) => list <$> readListOf value
  | some (.punctuator .openBrace) => object <$> readObjectOf value
  | _ => fail .value

theorem readTo_succ (constant : Bool) (depth : Nat) :
    readTo constant (depth + 1) = readStep constant (readTo constant depth) := by
  funext c
  refine peek_congr fun o hn => ?_
  cases constant <;> simp only [if_true, Bool.false_eq_true, if_false]
  all_goals
    split
    · exact skip_eq_expect hn .value
    -- the remaining tokens are treated alike
    all_goals simp only [*]

theorem alikeBelow_readStep (constant : Bool) {n : Nat} {value value' : Reader Value}
    [Forward value] (h : AlikeBelow n value value') :
    AlikeBelow (n + 1) (readStep constant value) (readStep constant value') := by
  refine (AlikeBelow.refl _ _).bind fun o => ?_
  split
  all_goals try exact .refl _ _
  · exact (h.bracketed _ _ _).map
  · exact ((NamedValue.alikeBelow _ h).bracketed _ _ _).map

/-- A value is read in one step, within which values are read. -/
theorem read_eq_readStep (constant : Bool) : read constant = readStep constant (read constant) := by
  funext c
  change readTo constant (c.tokens.length + 1) c = _
  rw [readTo_succ]
  exact alikeBelow_readStep constant (fun d hd => readTo_eq_read constant d _ hd) c
    (Nat.lt_succ_self _)

end Value

namespace TypeRef

/-- Reads a reference without the mark behind it. The opening bracket is required. -/
def readUnmarkedStep (inner : Reader TypeRef) : Reader TypeRef := do
  match ← peek with
  | some (.punctuator .openBracket) =>
    expect (.punctuator .openBracket) .type
    let inner ← inner
    expect (.punctuator .closeBracket) .listType
    return .list inner
  | some (.name _) => named <$> TypeName.read
  | _ => fail .type

theorem readUnmarked_eq_readUnmarkedStep (inner : Reader TypeRef) :
    readUnmarked inner = readUnmarkedStep inner := by
  funext c
  refine peek_congr fun o hn => ?_
  split
  · exact skip_eq_expect hn .type
  all_goals simp only

def readStep (inner : Reader TypeRef) : Reader TypeRef := do
  let unmarked ← readUnmarkedStep inner
  if ← eat (.punctuator .bang) then
    if ← at? (.punctuator .bang) then
      fail .nonNullType
    else
      return .nonNull unmarked
  else
    return unmarked

theorem readTo_succ (depth : Nat) : readTo (depth + 1) = readStep (readTo depth) := by
  rw [readTo, readStep, readUnmarked_eq_readUnmarkedStep]

instance (inner : Reader TypeRef) [Forward inner] : Forward (readUnmarkedStep inner) := by
  rw [← readUnmarked_eq_readUnmarkedStep]
  infer_instance

theorem alikeBelow_readStep {n : Nat} {inner inner' : Reader TypeRef} [Forward inner]
    (h : AlikeBelow n inner inner') : AlikeBelow (n + 1) (readStep inner) (readStep inner') := by
  refine AlikeBelow.bind ((AlikeBelow.refl _ _).bind fun o => ?_) fun _ => .refl _ _
  split
  all_goals try exact .refl _ _
  exact .bind_consuming fun _ => h.bind fun _ => .refl _ _

/-- A reference is read in one step, within which references are read. -/
theorem read_eq_readStep : read = readStep read := by
  funext c
  change readTo (c.tokens.length + 1) c = _
  rw [readTo_succ]
  exact alikeBelow_readStep (fun d hd => readTo_eq_read d _ hd) c (Nat.lt_succ_self _)

end TypeRef

namespace Selection

def readFragmentStep (selection : Reader Selection) : Reader Selection :=
  located do
    expect (.punctuator .ellipsis) .selection
    match ← peek with
    | some (.punctuator .atSign) | some (.punctuator .openBrace) | some (.name "on") =>
      let fragment ← InlineFragment.readOf selection
      return fun span => .inline { fragment with span }
    | some (.name _) =>
      let spread ← FragmentSpread.read
      return fun span => .spread { spread with span }
    | _ => fail .selection

def readStep (selection : Reader Selection) : Reader Selection := do
  match ← peek with
  | some (.name _) => field <$> Field.readOf selection
  | some (.punctuator .ellipsis) => readFragmentStep selection
  | _ => fail .selection

theorem readFragmentOf_eq_readFragmentStep (selection : Reader Selection) {c : Cursor}
    (hn : c.next? = some (.punctuator .ellipsis)) :
    readFragmentOf selection c = readFragmentStep selection c :=
  located_congr (skip_eq_expect hn .selection)

theorem readTo_succ (depth : Nat) : readTo (depth + 1) = readStep (readTo depth) := by
  funext c
  refine peek_congr fun o hn => ?_
  split
  · rfl
  · exact readFragmentOf_eq_readFragmentStep _ hn
  · simp only

theorem alikeBelow_readStep {n : Nat} {selection selection' : Reader Selection} [Forward selection]
    (h : AlikeBelow n selection selection') :
    AlikeBelow (n + 1) (readStep selection) (readStep selection') := by
  refine (AlikeBelow.refl _ _).bind fun o => ?_
  split
  · exact (Field.alikeBelow_readOf h).map
  · refine .located ((AlikeBelow.refl _ _).bind fun _ => (AlikeBelow.refl _ _).bind fun o => ?_)
    split
    all_goals try exact .refl _ _
    all_goals exact (InlineFragment.alikeBelow_readOf h).bind fun _ => .refl _ _
  · exact .refl _ _

/-- A selection is read in one step, within which selections are read. -/
theorem read_eq_readStep : read = readStep read := by
  funext c
  change readTo (c.tokens.length + 1) c = _
  rw [readTo_succ]
  exact alikeBelow_readStep (fun d hd => readTo_eq_read d _ hd) c (Nat.lt_succ_self _)

end Selection

end GraphQLText
