import GraphQLText.Directive.Reader
import GraphQLText.Proofs.Grammar.Phrase
import GraphQLText.TypeRef.Basic

/-!
# The grammar of values

The phrases that spell values, directives and type references. A node is spelled wherever it
stands, so spans have no part in the grammar. In a constant place no variable occurs, at any depth.
-/

namespace GraphQLText

set_option autoImplicit false

inductive TypeName.Derives : Phrase → TypeName → Prop
  | intro (n : TypeName) : Derives [.name n.name] n

inductive Variable.Derives : Phrase → Variable → Prop
  | intro (v : Variable) : Derives [.mark .dollar, .name v.name] v

inductive BooleanValue.Derives : Phrase → BooleanValue → Prop
  | intro (b : BooleanValue) : Derives [.name (if b.value then "true" else "false")] b

inductive StringValue.Derives : Phrase → StringValue → Prop
  | quoted (s : StringValue) : s.block = false → Derives [.need (.string s.value)] s
  | block (s : StringValue) : s.block = true → Derives [.need (.blockString s.value)] s

inductive NamedValue.Derives {ν : Type} (G : Phrase → ν → Prop) : Phrase → NamedValue ν → Prop
  | intro {u : Phrase} (f : NamedValue ν) : G u f.value →
      Derives G (.name f.name :: .mark .colon :: u) f

inductive Value.Derives (constant : Bool) : Phrase → Value → Prop
  | var {u : Phrase} {v : Variable} : constant = false → Variable.Derives u v →
      Derives constant u (.variable v)
  | int (l : Literal) : Derives constant [.need (.int l.text)] (.int l)
  | float (l : Literal) : Derives constant [.need (.float l.text)] (.float l)
  | string {u : Phrase} {s : StringValue} : StringValue.Derives u s →
      Derives constant u (.string s)
  | boolean {u : Phrase} {b : BooleanValue} : BooleanValue.Derives u b →
      Derives constant u (.boolean b)
  | null : Derives constant [.name "null"] .null
  | enum (l : Literal) : isEnumName l.text = true → Derives constant [.name l.text] (.enum l)
  | list {u : Phrase} (l : ListValue) : Many (Derives constant) u l.items →
      Derives constant (.mark .openBracket :: (u ++ [.mark .closeBracket])) (.list l)
  | object {u : Phrase} (o : ObjectValue) :
      Many (NamedValue.Derives (Derives constant)) u o.items →
      Derives constant (.mark .openBrace :: (u ++ [.mark .closeBrace])) (.object o)

abbrev Argument.Derives (constant : Bool) : Phrase → Argument → Prop :=
  NamedValue.Derives (Value.Derives constant)

abbrev Argument.DerivesAll (constant : Bool) : Phrase → List Argument → Prop :=
  Enclosed .openParen .closeParen (Argument.Derives constant)

abbrev Value.DerivesDefault : Phrase → Option Value → Prop :=
  Behind (.punctuator .equals) (Value.Derives true)

inductive Directive.Derives (constant : Bool) : Phrase → Directive → Prop
  | intro {u : Phrase} (d : Directive) : Argument.DerivesAll constant u d.arguments →
      Derives constant (.mark .atSign :: .name d.name :: u) d

abbrev Directive.DerivesAll (constant : Bool) : Phrase → List Directive → Prop :=
  Many (Directive.Derives constant)

/-- A type reference is a name or a reference in brackets, with at most one mark behind it. -/
inductive TypeRef.Derives : Phrase → TypeRef → Prop
  | named {u : Phrase} {n : TypeName} : TypeName.Derives u n → Derives u (.named n)
  | list {u : Phrase} {t : TypeRef} : Derives u t →
      Derives (.mark .openBracket :: (u ++ [.mark .closeBracket])) (.list t)
  | nonNull {u : Phrase} {t : TypeRef} : Derives u t → (∀ s, t ≠ .nonNull s) →
      Derives (u ++ [.mark .bang]) (.nonNull t)

theorem NamedValue.Derives.mono {ν : Type} {G H : Phrase → ν → Prop} {ws : Phrase}
    {f : NamedValue ν} (h : NamedValue.Derives G ws f)
    (hGH : ∀ u, G u f.value → H u f.value) : NamedValue.Derives H ws f := by
  cases h with
  | intro _ hu => exact .intro f (hGH _ hu)

theorem Value.Derives.relax {ws : Phrase} {v : Value} (h : Value.Derives true ws v)
    (constant : Bool) : Value.Derives constant ws v := by
  induction v using Value.induction generalizing ws with
  | var v => cases h with | var hc _ => exact absurd hc (by simp)
  | int l => cases h; exact .int l
  | float l => cases h; exact .float l
  | string s => cases h with | string hs => exact .string hs
  | boolean b => cases h with | boolean hb => exact .boolean hb
  | null => cases h; exact .null
  | enum l => cases h with | enum _ he => exact .enum l he
  | list l ih =>
    cases h with
    | list _ hm => exact .list l (hm.mono fun u v hv hu _ => ih v hv hu)
  | object o ih =>
    cases h with
    | object _ hm => exact .object o (hm.mono fun u f hf hu _ => hu.mono fun w hw => ih f hf hw)

theorem Directive.DerivesAll.relax {ws : Phrase} {ds : List Directive}
    (h : Directive.DerivesAll true ws ds) (constant : Bool) :
    Directive.DerivesAll constant ws ds := by
  refine Many.mono h fun u d _ hd _ => ?_
  cases hd with
  | intro _ hu => exact .intro d (hu.mono fun w f _ hf => hf.mono fun x hx => hx.relax constant)

end GraphQLText
