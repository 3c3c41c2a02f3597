import GraphQLText.Production

/-!
# Nodes that are moved

A node that stands further on in a text is the same node with all of its spans moved. A selection set
that is absent stands nowhere and so is not moved, and the size that a document notes is left out.
-/

namespace GraphQLText

set_option autoImplicit false

def Span.moved (shift : Nat) (s : Span) : Span :=
  ⟨s.start + shift, s.stop + shift⟩

@[simp] theorem Span.moved_moved (m n : Nat) (s : Span) : (s.moved n).moved m = s.moved (n + m) := by
  simp [moved, Nat.add_assoc]

/-- Whether there is nothing in a source for the brackets and the items between them. -/
def Bracketed.isAbsent {α : Type} (b : Bracketed α) : Bool :=
  b.items.isEmpty && b.span = Span.zero

/-- The span of a selection set as many bytes further on, unless the selection set is absent. -/
def Span.movedUnlessAbsent {σ : Type} (shift : Nat) (items : List σ) (s : Span) : Span :=
  if Bracketed.isAbsent ⟨items, s⟩ then s else s.moved shift

theorem Span.movedUnlessAbsent_twice {σ : Type} (m n : Nat) {as bs : List σ} (s : Span)
    (h : bs.isEmpty = as.isEmpty) :
    (s.movedUnlessAbsent n as).movedUnlessAbsent m bs = s.movedUnlessAbsent (n + m) as := by
  unfold movedUnlessAbsent Bracketed.isAbsent
  rw [h]
  by_cases habsent : (as.isEmpty && decide (s = Span.zero)) = true
  · simp [habsent]
  · rw [if_neg habsent, if_neg habsent, if_neg, moved_moved]
    -- only what stood at the beginning could have been moved there
    simp only [Bool.and_eq_true, decide_eq_true_eq] at habsent ⊢
    rintro ⟨hempty, hzero⟩
    apply habsent
    obtain ⟨start, stop⟩ := s
    simp only [moved, zero, Span.mk.injEq, Nat.add_eq_zero_iff] at hzero ⊢
    exact ⟨hempty, hzero.1.1, hzero.2.1⟩

class HasSpans (α : Type) where
  moved : Nat → α → α
  moved_moved : ∀ (m n : Nat) (a : α), moved m (moved n a) = moved (n + m) a

export HasSpans (moved moved_moved)

instance {α : Type} [HasSpans α] : HasSpans (Option α) where
  moved shift := Option.map (moved shift)
  moved_moved m n a := by simp [Function.comp_def, moved_moved]

instance {α : Type} [HasSpans α] : HasSpans (List α) where
  moved shift := List.map (moved shift)
  moved_moved m n a := by simp [Function.comp_def, moved_moved]

section Containers

variable {α : Type} [HasSpans α] (shift : Nat)

@[simp] theorem moved_nil : moved shift ([] : List α) = [] := rfl

@[simp] theorem moved_cons (a : α) (as : List α) :
    moved shift (a :: as) = moved shift a :: moved shift as := rfl

@[simp] theorem moved_none : moved shift (none : Option α) = none := rfl

@[simp] theorem moved_some (a : α) : moved shift (some a) = some (moved shift a) := rfl

theorem isEmpty_moved (as : List α) : (moved shift as).isEmpty = as.isEmpty := by
  cases as <;> rfl

end Containers

instance : HasSpans TypeName where
  moved shift n := { n with span := n.span.moved shift }
  moved_moved m n a := by simp

instance : HasSpans Variable where
  moved shift v := { v with span := v.span.moved shift }
  moved_moved m n a := by simp

instance : HasSpans Literal where
  moved shift l := { l with span := l.span.moved shift }
  moved_moved m n a := by simp

instance : HasSpans BooleanValue where
  moved shift b := { b with span := b.span.moved shift }
  moved_moved m n a := by simp

instance : HasSpans StringValue where
  moved shift s := { s with span := s.span.moved shift }
  moved_moved m n a := by simp

namespace Value

mutual

def moveBy (shift : Nat) : Value → Value
  | .variable v => .variable (moved shift v)
  | .int l => .int (moved shift l)
  | .float l => .float (moved shift l)
  | .string s => .string (moved shift s)
  | .boolean b => .boolean (moved shift b)
  | .null => .null
  | .enum l => .enum (moved shift l)
  | .list ⟨items, span⟩ => .list ⟨moveItems shift items, span.moved shift⟩
  | .object ⟨fields, span⟩ => .object ⟨moveFields shift fields, span.moved shift⟩

def moveItems (shift : Nat) : List Value → List Value
  | [] => []
  | v :: vs => moveBy shift v :: moveItems shift vs

def moveFields (shift : Nat) : List (NamedValue Value) → List (NamedValue Value)
  | [] => []
  | ⟨name, v, span⟩ :: fs => ⟨name, moveBy shift v, span.moved shift⟩ :: moveFields shift fs

end

mutual

theorem moveBy_moveBy (m n : Nat) : ∀ v : Value, moveBy m (moveBy n v) = moveBy (n + m) v
  | .variable _ | .int _ | .float _ | .string _ | .boolean _ | .null | .enum _ => by
    simp [moveBy, moved_moved]
  | .list ⟨items, _⟩ => by simp [moveBy, moveItems_moveItems m n items]
  | .object ⟨fields, _⟩ => by simp [moveBy, moveFields_moveFields m n fields]

theorem moveItems_moveItems (m n : Nat) : ∀ vs : List Value,
    moveItems m (moveItems n vs) = moveItems (n + m) vs
  | [] => rfl
  | v :: vs => by simp [moveItems, moveBy_moveBy m n v, moveItems_moveItems m n vs]

theorem moveFields_moveFields (m n : Nat) : ∀ fs : List (NamedValue Value),
    moveFields m (moveFields n fs) = moveFields (n + m) fs
  | [] => rfl
  | ⟨_, v, _⟩ :: fs => by simp [moveFields, moveBy_moveBy m n v, moveFields_moveFields m n fs]

end

instance : HasSpans Value where
  moved := moveBy
  moved_moved := moveBy_moveBy

end Value

instance {ν : Type} [HasSpans ν] : HasSpans (NamedValue ν) where
  moved shift f := ⟨f.name, moved shift f.value, f.span.moved shift⟩
  moved_moved _ _ _ := by simp [moved_moved]

def Bracketed.moved {α : Type} [HasSpans α] (shift : Nat) (b : Bracketed α) : Bracketed α :=
  ⟨HasSpans.moved shift b.items, b.span.moved shift⟩

theorem Bracketed.moved_moved {α : Type} [HasSpans α] (m n : Nat) (b : Bracketed α) :
    (b.moved n).moved m = b.moved (n + m) := by
  simp [moved, HasSpans.moved_moved]

instance : HasSpans ListValue where
  moved := Bracketed.moved
  moved_moved := Bracketed.moved_moved

instance : HasSpans ObjectValue where
  moved := Bracketed.moved
  moved_moved := Bracketed.moved_moved

namespace Value

theorem moveItems_eq_moved (shift : Nat) (vs : List Value) :
    moveItems shift vs = moved shift vs := by
  induction vs with
  | nil => rfl
  | cons v vs ih => rw [moveItems, ih, moved_cons]; rfl

theorem moveFields_eq_moved (shift : Nat) (fs : List (NamedValue Value)) :
    moveFields shift fs = moved shift fs := by
  induction fs with
  | nil => rfl
  | cons f fs ih =>
    obtain ⟨name, v, span⟩ := f
    rw [moveFields, ih, moved_cons]
    rfl

theorem moved_list (shift : Nat) (l : ListValue) :
    moved shift (list l) = list (moved shift l) :=
  congrArg (fun items => list ⟨items, l.span.moved shift⟩) (moveItems_eq_moved shift l.items)

theorem moved_object (shift : Nat) (o : ObjectValue) :
    moved shift (object o) = object (moved shift o) :=
  congrArg (fun fields => object ⟨fields, o.span.moved shift⟩) (moveFields_eq_moved shift o.items)

end Value

def TypeRef.moveBy (shift : Nat) : TypeRef → TypeRef
  | .named n => .named (moved shift n)
  | .list inner => .list (inner.moveBy shift)
  | .nonNull inner => .nonNull (inner.moveBy shift)

theorem TypeRef.moveBy_moveBy (m n : Nat) (t : TypeRef) :
    (t.moveBy n).moveBy m = t.moveBy (n + m) := by
  induction t with
  | named t => simp [moveBy, moved_moved]
  | list inner ih => simp [moveBy, ih]
  | nonNull inner ih => simp [moveBy, ih]

instance : HasSpans TypeRef where
  moved := TypeRef.moveBy
  moved_moved := TypeRef.moveBy_moveBy

instance : HasSpans Directive where
  moved shift d := ⟨d.name, moved shift d.arguments, d.span.moved shift⟩
  moved_moved _ _ _ := by simp [moved_moved]

instance : HasSpans FragmentSpread where
  moved shift s := ⟨moved shift s.name, moved shift s.directives, s.span.moved shift⟩
  moved_moved _ _ _ := by simp [moved_moved]

namespace Selection

mutual

def moveBy (shift : Nat) : Selection → Selection
  | .field ⟨a, name, arguments, directives, ⟨items, p⟩, span⟩ =>
    .field ⟨a, name, moved shift arguments, moved shift directives,
      ⟨moveAll shift items, p.movedUnlessAbsent shift items⟩, span.moved shift⟩
  | .spread s => .spread (moved shift s)
  | .inline ⟨condition, directives, ⟨items, p⟩, span⟩ =>
    .inline ⟨moved shift condition, moved shift directives,
      ⟨moveAll shift items, p.movedUnlessAbsent shift items⟩, span.moved shift⟩

def moveAll (shift : Nat) : List Selection → List Selection
  | [] => []
  | s :: ss => moveBy shift s :: moveAll shift ss

end

theorem isEmpty_moveAll (shift : Nat) (ss : List Selection) :
    (moveAll shift ss).isEmpty = ss.isEmpty := by
  cases ss <;> rfl

mutual

theorem moveBy_moveBy (m n : Nat) : ∀ s : Selection, moveBy m (moveBy n s) = moveBy (n + m) s
  | .field ⟨_, _, _, _, ⟨items, p⟩, _⟩ => by
    simp [moveBy, moved_moved, moveAll_moveAll m n items,
      Span.movedUnlessAbsent_twice m n p (isEmpty_moveAll n items)]
  | .spread _ => by simp [moveBy, moved_moved]
  | .inline ⟨_, _, ⟨items, p⟩, _⟩ => by
    simp [moveBy, moved_moved, moveAll_moveAll m n items,
      Span.movedUnlessAbsent_twice m n p (isEmpty_moveAll n items)]

theorem moveAll_moveAll (m n : Nat) : ∀ ss : List Selection,
    moveAll m (moveAll n ss) = moveAll (n + m) ss
  | [] => rfl
  | s :: ss => by simp [moveAll, moveBy_moveBy m n s, moveAll_moveAll m n ss]

end

instance : HasSpans Selection where
  moved := moveBy
  moved_moved := moveBy_moveBy

theorem moveAll_eq_moved (shift : Nat) (ss : List Selection) :
    moveAll shift ss = moved shift ss := by
  induction ss with
  | nil => rfl
  | cons s ss ih => rw [moveAll, ih, moved_cons]; rfl

end Selection

instance : HasSpans SelectionSet where
  moved shift s :=
    ⟨moved shift s.items, s.span.movedUnlessAbsent shift s.items⟩
  moved_moved m n s := by
    simp only [moved_moved, Span.movedUnlessAbsent_twice m n s.span (isEmpty_moved n s.items)]

instance : HasSpans Field where
  moved shift f :=
    ⟨f.aliasName, f.name, moved shift f.arguments, moved shift f.directives,
      moved shift f.selections, f.span.moved shift⟩
  moved_moved _ _ _ := by simp [moved_moved]

instance : HasSpans InlineFragment where
  moved shift f :=
    ⟨moved shift f.typeCondition, moved shift f.directives, moved shift f.selections,
      f.span.moved shift⟩
  moved_moved _ _ _ := by simp [moved_moved]

namespace Selection

theorem moved_field (shift : Nat) (f : Field) : moved shift (field f) = field (moved shift f) :=
  congrArg (fun items => field ⟨f.aliasName, f.name, moved shift f.arguments,
    moved shift f.directives, ⟨items, f.selections.span.movedUnlessAbsent shift
      f.selections.items⟩, f.span.moved shift⟩)
    (moveAll_eq_moved shift f.selections.items)

theorem moved_inline (shift : Nat) (f : InlineFragment) :
    moved shift (inline f) = inline (moved shift f) :=
  congrArg (fun items => inline ⟨moved shift f.typeCondition, moved shift f.directives,
    ⟨items, f.selections.span.movedUnlessAbsent shift
      f.selections.items⟩, f.span.moved shift⟩)
    (moveAll_eq_moved shift f.selections.items)

end Selection

instance : HasSpans OperationKind where
  moved _ kind := kind
  moved_moved _ _ _ := rfl

instance : HasSpans VariableDefinition where
  moved shift d :=
    ⟨moved shift d.var, moved shift d.type, moved shift d.default, moved shift d.directives,
      d.span.moved shift⟩
  moved_moved _ _ _ := by simp [moved_moved]

instance : HasSpans OperationDefinition where
  moved shift o :=
    ⟨o.kind, moved shift o.name, moved shift o.variableDefinitions, moved shift o.directives,
      moved shift o.selections, o.span.moved shift⟩
  moved_moved _ _ _ := by simp [moved_moved]

instance : HasSpans FragmentDefinition where
  moved shift f :=
    ⟨moved shift f.name, moved shift f.typeCondition, moved shift f.directives,
      moved shift f.selections, f.span.moved shift⟩
  moved_moved _ _ _ := by simp [moved_moved]

instance : HasSpans InputValueDefinition where
  moved shift d :=
    ⟨moved shift d.description, d.name, moved shift d.type, moved shift d.default,
      moved shift d.directives, d.span.moved shift⟩
  moved_moved _ _ _ := by simp [moved_moved]

instance : HasSpans FieldDefinition where
  moved shift d :=
    ⟨moved shift d.description, d.name, moved shift d.arguments, moved shift d.type,
      moved shift d.directives, d.span.moved shift⟩
  moved_moved _ _ _ := by simp [moved_moved]

instance : HasSpans EnumValueDefinition where
  moved shift d :=
    ⟨moved shift d.description, d.name, moved shift d.directives, d.span.moved shift⟩
  moved_moved _ _ _ := by simp [moved_moved]

def TypeContent.moveBy (shift : Nat) : TypeContent → TypeContent
  | .scalar => .scalar
  | .object interfaces fields => .object (moved shift interfaces) (moved shift fields)
  | .interface interfaces fields => .interface (moved shift interfaces) (moved shift fields)
  | .union members => .union (moved shift members)
  | .enum values => .enum (moved shift values)
  | .inputObject fields => .inputObject (moved shift fields)

instance : HasSpans TypeContent where
  moved := TypeContent.moveBy
  moved_moved _ _ c := by cases c <;> simp [TypeContent.moveBy, moved_moved]

instance : HasSpans TypeDefinition where
  moved shift d :=
    ⟨moved shift d.description, moved shift d.name, moved shift d.directives,
      moved shift d.content, d.span.moved shift⟩
  moved_moved _ _ _ := by simp [moved_moved]

instance : HasSpans RootOperationType where
  moved shift d := ⟨d.kind, moved shift d.type, d.span.moved shift⟩
  moved_moved _ _ _ := by simp [moved_moved]

instance : HasSpans SchemaDefinition where
  moved shift d :=
    ⟨moved shift d.description, moved shift d.directives, moved shift d.operationTypes,
      d.span.moved shift⟩
  moved_moved _ _ _ := by simp [moved_moved]

instance : HasSpans DirectiveLocation where
  moved _ location := location
  moved_moved _ _ _ := rfl

instance : HasSpans DirectiveDefinition where
  moved shift d :=
    ⟨moved shift d.description, d.name, moved shift d.arguments, d.repeatable, d.locations,
      d.span.moved shift⟩
  moved_moved _ _ _ := by simp [moved_moved]

def Definition.moveBy (shift : Nat) : Definition → Definition
  | .operation d => .operation (moved shift d)
  | .fragment d => .fragment (moved shift d)
  | .schema d => .schema (moved shift d)
  | .type d => .type (moved shift d)
  | .directive d => .directive (moved shift d)
  | .schemaExtension d => .schemaExtension (moved shift d)
  | .typeExtension d => .typeExtension (moved shift d)

instance : HasSpans Definition where
  moved := Definition.moveBy
  moved_moved _ _ d := by cases d <;> simp [Definition.moveBy, moved_moved]

instance : HasSpans Document where
  moved shift d := ⟨moved shift d.definitions, 0, d.span.moved shift⟩
  moved_moved _ _ _ := by simp [moved_moved]

instance (p : Production) : HasSpans p.Node := by
  apply @Production.casesOn (fun p => HasSpans p.Node) p <;> intros <;> exact inferInstance

def Production.moved (p : Production) (shift : Nat) (node : p.Node) : p.Node :=
  HasSpans.moved shift node

end GraphQLText
