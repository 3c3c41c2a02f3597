import GraphQLText.Node.Shape
import GraphQLText.Token.BlockString

/-!
# Values

The values that arguments, defaults and the parts of other values can have. Numbers and enum values
are kept as they are written.
-/

namespace GraphQLText

set_option autoImplicit false

/-- A name that stands for a type or, in a fragment or an operation, for the definition itself. -/
structure TypeName where
  name : String
  span : Span
deriving DecidableEq, Repr, Inhabited

structure Variable where
  name : String
  span : Span
deriving DecidableEq, Repr, Inhabited

/-- A number or an enum value, as it is written. -/
structure Literal where
  text : String
  span : Span
deriving DecidableEq, Repr, Inhabited

structure BooleanValue where
  value : Bool
  span : Span
deriving DecidableEq, Repr, Inhabited

/-- A string by the text that it stands for. -/
structure StringValue where
  value : String
  /-- Whether it is written between triple marks. -/
  block : Bool
  span : Span
deriving DecidableEq, Repr, Inhabited

structure Bracketed (α : Type) where
  items : List α
  span : Span
deriving DecidableEq, Repr, Inhabited

structure NamedValue (ν : Type) where
  name : String
  value : ν
  span : Span
deriving DecidableEq, Repr, Inhabited

inductive Value
  | variable (v : Variable)
  | int (l : Literal)
  | float (l : Literal)
  | string (s : StringValue)
  | boolean (b : BooleanValue)
  | null
  | enum (l : Literal)
  | list (l : Bracketed Value)
  | object (o : Bracketed (NamedValue Value))
deriving Repr, Inhabited

abbrev ListValue := Bracketed Value

abbrev ObjectField := NamedValue Value

abbrev ObjectValue := Bracketed ObjectField

abbrev Argument := NamedValue Value

/-- A type name that stands in no source. -/
def TypeName.ofString (name : String) : TypeName :=
  ⟨name, Span.zero⟩

def Variable.ofString (name : String) : Variable :=
  ⟨name, Span.zero⟩

def BooleanValue.ofBool (value : Bool) : BooleanValue :=
  ⟨value, Span.zero⟩

def StringValue.ofString (value : String) : StringValue :=
  ⟨value, false, Span.zero⟩

namespace Bracketed

/-- No items, and no brackets either. -/
def absent {α : Type} : Bracketed α :=
  ⟨[], Span.zero⟩

end Bracketed

namespace StringValue

/-- Whether the string is written as a block: it was one, and a block string can hold its text. -/
def isBlock (s : StringValue) : Bool :=
  s.block && BlockString.keeps s.value.toList

end StringValue

namespace Value

mutual

def beq : Value → Value → Bool
  | .variable v, .variable w => v == w
  | .int l, .int m => l == m
  | .float l, .float m => l == m
  | .string s, .string t => s == t
  | .boolean b, .boolean c => b == c
  | .null, .null => true
  | .enum l, .enum m => l == m
  | .list ⟨xs, s⟩, .list ⟨ys, t⟩ => beqItems xs ys && s == t
  | .object ⟨xs, s⟩, .object ⟨ys, t⟩ => beqFields xs ys && s == t
  | _, _ => false

def beqItems : List Value → List Value → Bool
  | [], [] => true
  | v :: vs, w :: ws => beq v w && beqItems vs ws
  | _, _ => false

def beqFields : List (NamedValue Value) → List (NamedValue Value) → Bool
  | [], [] => true
  | ⟨n, v, s⟩ :: fs, ⟨m, w, t⟩ :: gs => n == m && beq v w && s == t && beqFields fs gs
  | _, _ => false

end

mutual

theorem beq_iff : ∀ v w : Value, beq v w = true ↔ v = w
  | .variable v, w => by cases w <;> simp [beq]
  | .int v, w => by cases w <;> simp [beq]
  | .float v, w => by cases w <;> simp [beq]
  | .string v, w => by cases w <;> simp [beq]
  | .boolean v, w => by cases w <;> simp [beq]
  | .null, w => by cases w <;> simp [beq]
  | .enum v, w => by cases w <;> simp [beq]
  | .list ⟨xs, s⟩, w => by
    cases w with
    | list l => cases l; simp [beq, beqItems_iff xs]
    | _ => simp [beq]
  | .object ⟨xs, s⟩, w => by
    cases w with
    | object o => cases o; simp [beq, beqFields_iff xs]
    | _ => simp [beq]

theorem beqItems_iff : ∀ vs ws : List Value, beqItems vs ws = true ↔ vs = ws
  | [], ws => by cases ws <;> simp [beqItems]
  | v :: vs, ws => by
    cases ws with
    | nil => simp [beqItems]
    | cons w ws => simp [beqItems, beq_iff v, beqItems_iff vs]

theorem beqFields_iff : ∀ fs gs : List (NamedValue Value), beqFields fs gs = true ↔ fs = gs
  | [], gs => by cases gs <;> simp [beqFields]
  | ⟨n, v, s⟩ :: fs, gs => by
    cases gs with
    | nil => simp [beqFields]
    | cons g gs => cases g; simp [beqFields, beq_iff v, beqFields_iff fs, and_assoc]

end

instance : DecidableEq Value := fun v w =>
  decidable_of_iff (beq v w = true) (beq_iff v w)

end Value

instance : HasShape TypeName where
  reshape _ n := { n with span := Span.zero }
  reshape_reshape _ _ _ := rfl

instance : HasShape Variable where
  reshape _ v := { v with span := Span.zero }
  reshape_reshape _ _ _ := rfl

instance : HasShape Literal where
  reshape _ l := { l with span := Span.zero }
  reshape_reshape _ _ _ := rfl

instance : HasShape BooleanValue where
  reshape _ b := { b with span := Span.zero }
  reshape_reshape _ _ _ := rfl

instance : HasShape StringValue where
  reshape flag s := { s with block := flag s.value s.block, span := Span.zero }
  reshape_reshape _ _ _ := rfl

namespace Value

mutual

/-- A value without its spans and with its strings flagged anew. -/
def restyle (flag : String → Bool → Bool) : Value → Value
  | .variable v => .variable (reshape flag v)
  | .int l => .int (reshape flag l)
  | .float l => .float (reshape flag l)
  | .string s => .string (reshape flag s)
  | .boolean b => .boolean (reshape flag b)
  | .null => .null
  | .enum l => .enum (reshape flag l)
  | .list ⟨items, _⟩ => .list ⟨restyleItems flag items, Span.zero⟩
  | .object ⟨fields, _⟩ => .object ⟨restyleFields flag fields, Span.zero⟩

def restyleItems (flag : String → Bool → Bool) : List Value → List Value
  | [] => []
  | v :: vs => restyle flag v :: restyleItems flag vs

def restyleFields (flag : String → Bool → Bool) :
    List (NamedValue Value) → List (NamedValue Value)
  | [] => []
  | ⟨name, v, _⟩ :: fs => ⟨name, restyle flag v, Span.zero⟩ :: restyleFields flag fs

end

mutual

theorem restyle_restyle (f g : String → Bool → Bool) : ∀ v : Value,
    restyle f (restyle g v) = restyle (fun text block => f text (g text block)) v
  | .variable _ | .int _ | .float _ | .string _ | .boolean _ | .null | .enum _ => rfl
  | .list ⟨items, _⟩ => by simp [restyle, restyleItems_restyleItems f g items]
  | .object ⟨fields, _⟩ => by simp [restyle, restyleFields_restyleFields f g fields]

theorem restyleItems_restyleItems (f g : String → Bool → Bool) : ∀ vs : List Value,
    restyleItems f (restyleItems g vs) =
      restyleItems (fun text block => f text (g text block)) vs
  | [] => rfl
  | v :: vs => by
    simp [restyleItems, restyle_restyle f g v, restyleItems_restyleItems f g vs]

theorem restyleFields_restyleFields (f g : String → Bool → Bool) :
    ∀ fs : List (NamedValue Value),
      restyleFields f (restyleFields g fs) =
        restyleFields (fun text block => f text (g text block)) fs
  | [] => rfl
  | ⟨_, v, _⟩ :: fs => by
    simp [restyleFields, restyle_restyle f g v, restyleFields_restyleFields f g fs]

end

instance : HasShape Value where
  reshape := restyle
  reshape_reshape := restyle_restyle

end Value

instance {ν : Type} [HasShape ν] : HasShape (NamedValue ν) where
  reshape flag f := ⟨f.name, reshape flag f.value, Span.zero⟩
  reshape_reshape _ _ _ := by simp [reshape_reshape]

instance {α : Type} [HasShape α] : HasShape (Bracketed α) where
  reshape flag b := ⟨reshape flag b.items, Span.zero⟩
  reshape_reshape _ _ _ := by simp [reshape_reshape]

namespace Value

theorem restyleItems_eq_map (flag : String → Bool → Bool) (vs : List Value) :
    restyleItems flag vs = reshape flag vs := by
  induction vs with
  | nil => rfl
  | cons v vs ih => simp [restyleItems, ih, reshape]

theorem restyleFields_eq_map (flag : String → Bool → Bool) (fs : List (NamedValue Value)) :
    restyleFields flag fs = reshape flag fs := by
  induction fs with
  | nil => rfl
  | cons f fs ih =>
    cases f
    simp [restyleFields, ih, reshape]

/-- A claim holds of all values if it holds of those without parts, and of lists and objects
when it holds of the values in them. -/
@[elab_as_elim]
theorem induction {P : Value → Prop} (var : ∀ v, P (.variable v)) (int : ∀ l, P (.int l))
    (float : ∀ l, P (.float l)) (string : ∀ s, P (.string s)) (boolean : ∀ b, P (.boolean b))
    (null : P .null) (enum : ∀ l, P (.enum l))
    (list : ∀ l : ListValue, (∀ v ∈ l.items, P v) → P (.list l))
    (object : ∀ o : ObjectValue, (∀ f ∈ o.items, P f.value) → P (.object o)) : ∀ v, P v
  | .variable v => var v
  | .int l => int l
  | .float l => float l
  | .string s => string s
  | .boolean b => boolean b
  | .null => null
  | .enum l => enum l
  | .list ⟨items, span⟩ => list ⟨items, span⟩ fun v _ =>
    induction var int float string boolean null enum list object v
  | .object ⟨fields, span⟩ => object ⟨fields, span⟩ fun f _ =>
    induction var int float string boolean null enum list object f.value
termination_by v => sizeOf v
decreasing_by
  · next hv =>
    have hlt : sizeOf v < sizeOf items := List.sizeOf_lt_of_mem hv
    simp only [Value.list.sizeOf_spec, Bracketed.mk.sizeOf_spec]
    omega
  · next hf =>
    have hlt : sizeOf f < sizeOf fields := List.sizeOf_lt_of_mem hf
    obtain ⟨name, value, p⟩ := f
    simp only [Value.object.sizeOf_spec, Bracketed.mk.sizeOf_spec, NamedValue.mk.sizeOf_spec]
      at hlt ⊢
    omega

theorem reshape_list (flag : String → Bool → Bool) (l : ListValue) :
    reshape flag (list l) = list (reshape flag l) :=
  congrArg (fun items => list ⟨items, Span.zero⟩) (restyleItems_eq_map flag l.items)

theorem reshape_object (flag : String → Bool → Bool) (o : ObjectValue) :
    reshape flag (object o) = object (reshape flag o) :=
  congrArg (fun fields => object ⟨fields, Span.zero⟩) (restyleFields_eq_map flag o.items)

end Value

end GraphQLText
