import GraphQLText.Directive.Basic

/-!
# Selections

What an operation asks for: fields, each perhaps with selections of its own, and fragments.
-/

namespace GraphQLText

set_option autoImplicit false

/-- A field, given the type of the selections below it. -/
structure FieldOf (σ : Type) where
  aliasName : Option String
  name : String
  arguments : List Argument
  directives : List Directive
  selections : Bracketed σ
  span : Span
deriving DecidableEq, Repr, Inhabited

/-- The selections of a fragment that is defined elsewhere. -/
structure FragmentSpread where
  name : TypeName
  directives : List Directive
  span : Span
deriving DecidableEq, Repr, Inhabited

/-- Selections that apply to some type only, given the type of the selections. -/
structure InlineFragmentOf (σ : Type) where
  typeCondition : Option TypeName
  directives : List Directive
  selections : Bracketed σ
  span : Span
deriving DecidableEq, Repr, Inhabited

inductive Selection
  | field (f : FieldOf Selection)
  | spread (s : FragmentSpread)
  | inline (f : InlineFragmentOf Selection)
deriving Repr, Inhabited

abbrev Field := FieldOf Selection

abbrev InlineFragment := InlineFragmentOf Selection

abbrev SelectionSet := Bracketed Selection

namespace FieldOf

/-- The name under which the answer of a field is found. -/
def responseName {σ : Type} (f : FieldOf σ) : String :=
  f.aliasName.getD f.name

end FieldOf

instance : HasShape FragmentSpread where
  reshape flag s := ⟨reshape flag s.name, reshape flag s.directives, Span.zero⟩
  reshape_reshape _ _ _ := by simp [reshape_reshape]

namespace Selection

mutual

def beq : Selection → Selection → Bool
  | .field ⟨a, n, xs, ds, ⟨ss, p⟩, s⟩, .field ⟨b, m, ys, es, ⟨ts, q⟩, t⟩ =>
    a == b && n == m && xs == ys && ds == es && beqAll ss ts && p == q && s == t
  | .spread s, .spread t => s == t
  | .inline ⟨c, ds, ⟨ss, p⟩, s⟩, .inline ⟨d, es, ⟨ts, q⟩, t⟩ =>
    c == d && ds == es && beqAll ss ts && p == q && s == t
  | _, _ => false

def beqAll : List Selection → List Selection → Bool
  | [], [] => true
  | s :: ss, t :: ts => beq s t && beqAll ss ts
  | _, _ => false

end

mutual

theorem beq_iff : ∀ s t : Selection, beq s t = true ↔ s = t
  | .field ⟨a, n, xs, ds, ⟨ss, p⟩, sp⟩, t => by
    cases t with
    | field f =>
      obtain ⟨_, _, _, _, ⟨_, _⟩, _⟩ := f
      simp [beq, beqAll_iff ss, and_assoc]
    | _ => simp [beq]
  | .spread s, t => by cases t <;> simp [beq]
  | .inline ⟨c, ds, ⟨ss, p⟩, sp⟩, t => by
    cases t with
    | inline f =>
      obtain ⟨_, _, ⟨_, _⟩, _⟩ := f
      simp [beq, beqAll_iff ss, and_assoc]
    | _ => simp [beq]

theorem beqAll_iff : ∀ ss ts : List Selection, beqAll ss ts = true ↔ ss = ts
  | [], ts => by cases ts <;> simp [beqAll]
  | s :: ss, ts => by
    cases ts with
    | nil => simp [beqAll]
    | cons t ts => simp [beqAll, beq_iff s, beqAll_iff ss]

end

instance : DecidableEq Selection := fun s t =>
  decidable_of_iff (beq s t = true) (beq_iff s t)

mutual

def restyle (flag : String → Bool → Bool) : Selection → Selection
  | .field ⟨a, name, arguments, directives, ⟨items, _⟩, _⟩ =>
    .field ⟨a, name, reshape flag arguments, reshape flag directives,
      ⟨restyleAll flag items, Span.zero⟩, Span.zero⟩
  | .spread s => .spread (reshape flag s)
  | .inline ⟨condition, directives, ⟨items, _⟩, _⟩ =>
    .inline ⟨reshape flag condition, reshape flag directives,
      ⟨restyleAll flag items, Span.zero⟩, Span.zero⟩

def restyleAll (flag : String → Bool → Bool) : List Selection → List Selection
  | [] => []
  | s :: ss => restyle flag s :: restyleAll flag ss

end

mutual

theorem restyle_restyle (f g : String → Bool → Bool) : ∀ s : Selection,
    restyle f (restyle g s) = restyle (fun text block => f text (g text block)) s
  | .field ⟨_, _, _, _, ⟨items, _⟩, _⟩ => by
    simp [restyle, reshape_reshape, restyleAll_restyleAll f g items]
  | .spread _ => by simp [restyle, reshape_reshape]
  | .inline ⟨_, _, ⟨items, _⟩, _⟩ => by
    simp [restyle, reshape_reshape, restyleAll_restyleAll f g items]

theorem restyleAll_restyleAll (f g : String → Bool → Bool) : ∀ ss : List Selection,
    restyleAll f (restyleAll g ss) =
      restyleAll (fun text block => f text (g text block)) ss
  | [] => rfl
  | s :: ss => by simp [restyleAll, restyle_restyle f g s, restyleAll_restyleAll f g ss]

end

instance : HasShape Selection where
  reshape := restyle
  reshape_reshape := restyle_restyle

theorem restyleAll_eq_map (flag : String → Bool → Bool) (ss : List Selection) :
    restyleAll flag ss = reshape flag ss := by
  induction ss with
  | nil => rfl
  | cons s ss ih => simp [restyleAll, ih, reshape]

end Selection

instance {σ : Type} [HasShape σ] : HasShape (FieldOf σ) where
  reshape flag f :=
    ⟨f.aliasName, f.name, reshape flag f.arguments, reshape flag f.directives,
      reshape flag f.selections, Span.zero⟩
  reshape_reshape _ _ _ := by simp [reshape_reshape]

instance {σ : Type} [HasShape σ] : HasShape (InlineFragmentOf σ) where
  reshape flag f :=
    ⟨reshape flag f.typeCondition, reshape flag f.directives, reshape flag f.selections,
      Span.zero⟩
  reshape_reshape _ _ _ := by simp [reshape_reshape]

namespace Selection

/-- A claim holds of all selections if it holds of each that it holds of the selections below. -/
@[elab_as_elim]
theorem induction {P : Selection → Prop}
    (field : ∀ f : Field, (∀ s ∈ f.selections.items, P s) → P (.field f))
    (spread : ∀ s, P (.spread s))
    (inline : ∀ f : InlineFragment, (∀ s ∈ f.selections.items, P s) → P (.inline f)) :
    ∀ s, P s
  | .field ⟨a, name, arguments, directives, ⟨items, p⟩, span⟩ =>
    field ⟨a, name, arguments, directives, ⟨items, p⟩, span⟩ fun s _ =>
      induction field spread inline s
  | .spread s => spread s
  | .inline ⟨condition, directives, ⟨items, p⟩, span⟩ =>
    inline ⟨condition, directives, ⟨items, p⟩, span⟩ fun s _ => induction field spread inline s
termination_by s => sizeOf s
decreasing_by
  · next hs =>
    have hlt : sizeOf s < sizeOf items := List.sizeOf_lt_of_mem hs
    simp only [Selection.field.sizeOf_spec, FieldOf.mk.sizeOf_spec, Bracketed.mk.sizeOf_spec]
    omega
  · next hs =>
    have hlt : sizeOf s < sizeOf items := List.sizeOf_lt_of_mem hs
    simp only [Selection.inline.sizeOf_spec, InlineFragmentOf.mk.sizeOf_spec,
      Bracketed.mk.sizeOf_spec]
    omega

theorem reshape_field (flag : String → Bool → Bool) (f : Field) :
    reshape flag (field f) = field (reshape flag f) :=
  congrArg (fun items => field ⟨f.aliasName, f.name, reshape flag f.arguments,
    reshape flag f.directives, ⟨items, Span.zero⟩, Span.zero⟩)
    (restyleAll_eq_map flag f.selections.items)

theorem reshape_inline (flag : String → Bool → Bool) (f : InlineFragment) :
    reshape flag (inline f) = inline (reshape flag f) :=
  congrArg (fun items => inline ⟨reshape flag f.typeCondition, reshape flag f.directives,
    ⟨items, Span.zero⟩, Span.zero⟩) (restyleAll_eq_map flag f.selections.items)

end Selection

end GraphQLText
