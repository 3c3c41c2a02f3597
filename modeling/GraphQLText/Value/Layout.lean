import GraphQLText.Layout.Piece
import GraphQLText.Value.Basic

/-!
# Writing values

Lists, objects and arguments are written on one line with commas. Only block strings take further
lines, at the depth of the node that they belong to.
-/

namespace GraphQLText

set_option autoImplicit false

def TypeName.layout (n : TypeName) : Layout :=
  [.name n.name]

def Variable.layout (v : Variable) : Layout :=
  [.mark .dollar, .name v.name]

def Literal.layout (token : String → Token) (l : Literal) : Layout :=
  [.word (token l.text)]

def BooleanValue.layout (b : BooleanValue) : Layout :=
  [.name (if b.value then "true" else "false")]

/-- A string as it is written: as a block if it may be. -/
def StringValue.layout (level : Nat) (s : StringValue) : Layout :=
  if s.isBlock then [.block s.value level] else [.word (.string s.value)]

def NamedValue.layoutWith (name : String) (value : Layout) : Layout :=
  .name name :: .mark .colon :: .space :: value

namespace Value

mutual

def layout (level : Nat) : Value → Layout
  | .variable v => v.layout
  | .int l => l.layout .int
  | .float l => l.layout .float
  | .string s => s.layout level
  | .boolean b => b.layout
  | .null => [.name "null"]
  | .enum l => l.layout .name
  | .list ⟨items, _⟩ => Layout.enclosed .openBracket .closeBracket (itemLayouts level items)
  | .object ⟨fields, _⟩ => Layout.enclosed .openBrace .closeBrace (fieldLayouts level fields)

def itemLayouts (level : Nat) : List Value → List Layout
  | [] => []
  | v :: vs => layout level v :: itemLayouts level vs

def fieldLayouts (level : Nat) : List (NamedValue Value) → List Layout
  | [] => []
  | ⟨name, v, _⟩ :: fs => NamedValue.layoutWith name (layout level v) :: fieldLayouts level fs

end

end Value

def NamedValue.layout (level : Nat) (f : NamedValue Value) : Layout :=
  layoutWith f.name (f.value.layout level)

def ListValue.layout (level : Nat) (l : ListValue) : Layout :=
  (Value.list l).layout level

def ObjectValue.layout (level : Nat) (o : ObjectValue) : Layout :=
  (Value.object o).layout level

def Argument.layoutAll (level : Nat) (arguments : List Argument) : Layout :=
  if arguments.isEmpty then []
  else Layout.enclosed .openParen .closeParen (arguments.map (NamedValue.layout level))

def Value.defaultLayout (level : Nat) (default : Option Value) : Layout :=
  match default with
  | some v => .space :: .mark .equals :: .space :: v.layout level
  | none => []

theorem Value.itemLayouts_eq_map (level : Nat) (vs : List Value) :
    itemLayouts level vs = vs.map (layout level) := by
  induction vs with
  | nil => rfl
  | cons v vs ih => simp [itemLayouts, ih]

theorem Value.fieldLayouts_eq_map (level : Nat) (fs : List (NamedValue Value)) :
    fieldLayouts level fs = fs.map (NamedValue.layout level) := by
  induction fs with
  | nil => rfl
  | cons f fs ih =>
    cases f
    simp [fieldLayouts, NamedValue.layout, ih]

end GraphQLText
