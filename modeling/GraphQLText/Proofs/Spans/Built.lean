import GraphQLText.Production
import GraphQLText.Proofs.Spans.Children
import GraphQLText.Proofs.Spans.Slice

/-!
# Nodes are read around their children

A node is read from its first token to its last one, and on the way its children are read, one behind
the other, in the order of the grammar. That is shown of every reader by going through its steps.
-/

namespace GraphQLText

set_option autoImplicit false

open Reader

namespace Cursor

/-- The nodes were read one behind the other on the way from the one place to the other, each of them
around its children. -/
inductive Nests : Cursor → List Part → Cursor → Prop
  | nil {c d : Cursor} : c.Reaches d → Nests c [] d
  | absent {c d : Cursor} {x : Part} {xs : List Part} :
      x.isAbsent = true → Nests c xs d → Nests c (x :: xs) d
  | node {c b d e : Cursor} {x : Part} {xs : List Part} :
      c.Reaches b → x.span? = some ⟨b.nextSpan.start, max d.lastEnd b.nextSpan.start⟩ →
        d.tokens.length < b.tokens.length → Nests b x.children d → Nests d xs e →
          Nests c (x :: xs) e

namespace Nests

variable {c d e : Cursor} {xs ys : List Part}

theorem reaches (h : c.Nests xs d) : c.Reaches d := by
  induction h with
  | nil h => exact h
  | absent _ _ ih => exact ih
  | node hc _ _ _ _ hd he => exact (hc.trans hd).trans he

theorem from_reaches (hc : c.Reaches d) (h : d.Nests xs e) : c.Nests xs e := by
  induction h with
  | nil h => exact .nil (hc.trans h)
  | absent hx _ ih => exact .absent hx (ih hc)
  | node hb hspan hlt hchildren hrest => exact .node (hc.trans hb) hspan hlt hchildren hrest

theorem append (hx : c.Nests xs d) (hy : d.Nests ys e) : c.Nests (xs ++ ys) e := by
  induction hx with
  | nil h => exact .from_reaches h hy
  | absent hx _ ih => exact .absent hx (ih hy)
  | node hb hspan hlt hchildren _ _ ih => exact .node hb hspan hlt hchildren (ih hy)

theorem reach (h : c.Nests xs d) (hd : d.Reaches e) : c.Nests xs e := by
  have happ := h.append (.nil hd)
  rwa [List.append_nil] at happ

end Nests

end Cursor

namespace Reader

variable {α : Type} {r : Reader α} {own : α → List Part}

def Builds (r : Reader α) (own : α → List Part) : Prop :=
  ∀ c, Always r c fun a d => c.Nests (own a) d

theorem Builds.nil (r : Reader α) [Forward r] : Builds r fun _ => [] :=
  fun c a d hr => .nil (Forward.reaches c a d hr)

/-- What the reader gives takes at least a token and has the span of what was read, and the given
nodes are read on the way. -/
def Surrounds (r : Reader α) (span : α → Option Span) (children : α → List Part) : Prop :=
  ∀ c, Always r c fun a d =>
    span a = some ⟨c.nextSpan.start, max d.lastEnd c.nextSpan.start⟩ ∧
      d.tokens.length < c.tokens.length ∧ c.Nests (children a) d

theorem Surrounds.located {r : Reader (Span → α)} {span : α → Option Span}
    {children : α → List Part} [Consuming (located r)]
    (h : ∀ c, Always r c fun f d => ∀ s, span (f s) = some s ∧ c.Nests (children (f s)) d) :
    Surrounds (located r) span children := by
  intro c a d hr
  have hlt := Consuming.length_lt c a d hr
  obtain ⟨f, hf, rfl⟩ := located_eq_ok.mp hr
  obtain ⟨hspan, hchildren⟩ := h c f d hf _
  exact ⟨hspan, hlt, hchildren⟩

theorem Surrounds.builds (p : Production) {r : Reader p.Node}
    (h : Surrounds r p.span? p.children) : Builds r p.single := by
  intro c n d hr
  obtain ⟨hspan, hlt, hchildren⟩ := h c n d hr
  exact .node (.refl c) hspan hlt hchildren (.nil (.refl d))

theorem Builds.leaf (p : Production) {r : Reader (Span → p.Node)} [Forward r]
    [Consuming (located r)] (hnil : ∀ n, p.children n = [])
    (h : ∀ c, Always r c fun f _ => ∀ span, p.span? (f span) = some span) :
    Builds (located r) p.single := by
  refine Surrounds.builds p (.located fun c f d hf span => ⟨h c f d hf span, ?_⟩)
  rw [hnil]
  exact .nil (Forward.reaches c f d hf)

section Items

variable {item : Reader α}

theorem Builds.whileMore {more : Reader Bool} [Forward more] (h : Builds item own) :
    Builds (whileMore more item) (List.flatMap own) := by
  intro c as
  induction as generalizing c with
  | nil =>
    intro last hw
    rcases whileMore_eq_ok.mp hw with ⟨hm, -⟩ | ⟨d, a, e, hm, hi, hrest⟩
    · exact .nil (Forward.reaches c false last hm)
    · split at hrest
      · obtain ⟨bs, -, hnil⟩ := hrest
        cases hnil
      · cases hrest.1
  | cons a as ih =>
    intro last hw
    rcases whileMore_eq_ok.mp hw with ⟨-, hnil⟩ | ⟨d, a', e, hm, hi, hrest⟩
    · cases hnil
    · have hd := Forward.reaches c true d hm
      rw [List.flatMap_cons]
      split at hrest
      · obtain ⟨bs, hbs, heq⟩ := hrest
        obtain ⟨rfl, rfl⟩ := List.cons.inj heq
        exact .from_reaches hd ((h d a e hi).append (ih e last hbs))
      · obtain ⟨heq, rfl⟩ := hrest
        obtain ⟨rfl, rfl⟩ := List.cons.inj heq
        exact .from_reaches hd ((h d a last hi).append (.nil (.refl last)))

theorem Builds.enclosed (h : Builds item own) (opening close : Punctuator) :
    Builds (enclosed opening close item) (List.flatMap own) := by
  intro c as d hr
  obtain ⟨opened, c₁, heat, hr⟩ := bind_eq_ok.mp hr
  have hc := Forward.reaches c opened c₁ heat
  split at hr
  · obtain ⟨first, c₂, hfirst, hr⟩ := bind_eq_ok.mp hr
    obtain ⟨rest, c₃, hrest, ⟨⟩⟩ := bind_eq_ok.mp hr
    exact .from_reaches hc ((h c₁ first c₂ hfirst).append (h.whileMore c₂ rest d hrest))
  · obtain ⟨⟩ := hr
    exact .nil hc

theorem Builds.separated (h : Builds item own) (separator : Punctuator) :
    Builds (separated separator item) (List.flatMap own) := by
  intro c as d hr
  obtain ⟨led, c₁, heat, hr⟩ := bind_eq_ok.mp hr
  obtain ⟨first, c₂, hfirst, hr⟩ := bind_eq_ok.mp hr
  obtain ⟨rest, c₃, hrest, ⟨⟩⟩ := bind_eq_ok.mp hr
  have hc := Forward.reaches c led c₁ heat
  exact .from_reaches hc ((h c₁ first c₂ hfirst).append (h.whileMore c₂ rest d hrest))

theorem Builds.behind (h : Builds item own) (t : Token) :
    Builds (behind? t item) fun o => o.toList.flatMap own := by
  intro c o d hr
  obtain ⟨found, c₁, heat, hr⟩ := bind_eq_ok.mp hr
  have hc := Forward.reaches c found c₁ heat
  split at hr
  · rw [← bind_pure_comp] at hr
    obtain ⟨a, c₂, ha, ⟨⟩⟩ := bind_eq_ok.mp hr
    simpa using Cursor.Nests.from_reaches hc (h c₁ a d ha)
  · obtain ⟨⟩ := hr
    exact .nil hc

end Items

end Reader

theorem TypeName.builds_read : Builds TypeName.read (Production.single .typeName) := by
  refine .leaf .typeName (fun _ => rfl) ?_
  simp only [always_bind, always_pure]
  exact fun _ _ _ _ _ => rfl

theorem Variable.builds_read : Builds Variable.read (Production.single .variable) := by
  refine .leaf .variable (fun _ => rfl) ?_
  simp only [always_bind, always_pure]
  exact fun _ _ _ _ _ _ _ _ => rfl

theorem StringValue.builds_read : Builds StringValue.read (Production.single .stringValue) := by
  refine .leaf .stringValue (fun _ => rfl) ?_
  simp only [always_bind, always_pure]
  exact fun _ _ _ _ _ => rfl

theorem BooleanValue.builds_read : Builds BooleanValue.read (Production.single .booleanValue) := by
  refine .leaf .booleanValue (fun _ => rfl) ?_
  simp only [always_bind, always_pure]
  exact fun _ _ _ _ _ => rfl

namespace Literal

theorem builds_readInt : Builds readInt (Production.single .intValue) := by
  refine .leaf .intValue (fun _ => rfl) ?_
  simp only [always_bind, always_pure]
  exact fun _ _ _ _ _ => rfl

theorem builds_readFloat : Builds readFloat (Production.single .floatValue) := by
  refine .leaf .floatValue (fun _ => rfl) ?_
  simp only [always_bind, always_pure]
  exact fun _ _ _ _ _ => rfl

theorem builds_readEnum : Builds readEnum (Production.single .enumValue) := by
  refine .leaf .enumValue (fun _ => rfl) ?_
  simp only [always_bind, always_pure]
  exact fun _ _ _ _ _ => rfl

end Literal

section Values

variable {value : Reader Value} [Forward value]

theorem NamedValue.surrounds_read (expected : Construct) (h : Builds value Value.own) :
    Surrounds (NamedValue.read expected value) (fun n => some n.span) fun n => n.value.own := by
  refine .located fun c => ?_
  simp only [always_bind, always_pure]
  intro _ c₁ hname _ c₂ hcolon v d hv span
  have hc := (Forward.reaches _ _ _ hname).trans (Forward.reaches _ _ _ hcolon)
  exact ⟨trivial, .from_reaches hc (h c₂ v d hv)⟩

theorem Bracketed.surrounds_read {α : Type} {item : Reader α} [Forward item]
    {own : α → List Part} (opening close : Punctuator) (expected : Construct)
    (h : Builds item own) :
    Surrounds (Bracketed.read opening close expected item) (fun b => some b.span)
      fun b => b.items.flatMap own := by
  refine .located fun c => ?_
  simp only [always_bind, always_pure]
  intro _ c₁ hopen items d hitems span
  exact ⟨trivial, .from_reaches (Forward.reaches _ _ _ hopen) (h.whileMore c₁ items d hitems)⟩

theorem ObjectField.builds_read (h : Builds value Value.own) :
    Builds (NamedValue.read .objectField value) (Production.single .objectField) :=
  Surrounds.builds .objectField (NamedValue.surrounds_read .objectField h)

theorem ListValue.builds_read (h : Builds value Value.own) :
    Builds (Value.readListOf value) (Production.single .listValue) :=
  Surrounds.builds .listValue (Bracketed.surrounds_read .openBracket .closeBracket .list h)

theorem ObjectValue.builds_read (h : Builds value Value.own) :
    Builds (Value.readObjectOf value) (Production.single .objectValue) :=
  Surrounds.builds .objectValue
    (Bracketed.surrounds_read .openBrace .closeBrace .object (ObjectField.builds_read h))

theorem Value.builds_readTo (constant : Bool) (depth : Nat) :
    Builds (readTo constant depth) own := by
  induction depth with
  | zero => exact fun _ => always_fail
  | succ depth ih =>
    intro c
    rw [readTo, always_bind, always_peek]
    split
    · simp only [always_bind, always_skip, always_pure]
      exact .nil c.reaches_advance
    · exact always_map.mpr (BooleanValue.builds_read c)
    · exact always_map.mpr (BooleanValue.builds_read c)
    · exact always_map.mpr (Literal.builds_readEnum c)
    · rw [always_ite]
      exact ⟨fun _ => always_fail, fun _ => always_map.mpr (Variable.builds_read c)⟩
    · exact always_map.mpr (Literal.builds_readFloat c)
    · exact always_map.mpr (Literal.builds_readInt c)
    · exact always_map.mpr (StringValue.builds_read c)
    · exact always_map.mpr (StringValue.builds_read c)
    · exact always_map.mpr ((ListValue.builds_read ih) c)
    · exact always_map.mpr ((ObjectValue.builds_read ih) c)
    · exact always_fail

theorem Value.builds_read (constant : Bool) : Builds (Value.read constant) Value.own := by
  intro c
  rw [Value.read, always_nested]
  exact builds_readTo constant _ c

end Values

theorem Value.builds_readDefault :
    Builds Value.readDefault? fun o => o.toList.flatMap Value.own :=
  (Value.builds_read true).behind _

section Directives

variable (constant : Bool)

theorem Argument.builds_read : Builds (Argument.read constant) (Production.single .argument) :=
  Surrounds.builds .argument (NamedValue.surrounds_read .argument (Value.builds_read constant))

theorem Argument.builds_readAll :
    Builds (Argument.readAll constant) (Production.parts .argument) :=
  (Argument.builds_read constant).enclosed _ _

theorem Directive.builds_read : Builds (Directive.read constant) (Production.single .directive) := by
  refine Surrounds.builds .directive (.located fun c => ?_)
  simp only [always_bind, always_pure]
  intro _ c₁ hat name c₂ hname arguments d harguments span
  have hc := (Forward.reaches _ _ _ hat).trans (Forward.reaches _ _ _ hname)
  exact ⟨rfl, .from_reaches hc (Argument.builds_readAll constant _ _ _ harguments)⟩

theorem Directive.builds_readAll :
    Builds (Directive.readAll constant) (Production.parts .directive) :=
  (Directive.builds_read constant).whileMore

end Directives

namespace TypeRef

theorem builds_readUnmarked {inner : Reader TypeRef} (h : Builds inner own) :
    Builds (readUnmarked inner) own := by
  intro c
  rw [readUnmarked, always_bind, always_peek]
  split
  · simp only [always_bind, always_pure, always_skip]
    intro t c₁ ht _ d hclose
    exact .from_reaches c.reaches_advance ((h _ t c₁ ht).reach (Forward.reaches _ _ _ hclose))
  · exact always_map.mpr (TypeName.builds_read c)
  · exact always_fail

theorem builds_readTo (depth : Nat) : Builds (readTo depth) own := by
  induction depth with
  | zero => exact fun _ => always_fail
  | succ depth ih =>
    intro c
    simp only [readTo, always_bind, always_ite, always_at?, always_pure]
    intro t c₁ ht found c₂ heat
    have hc := (builds_readUnmarked ih c t c₁ ht).reach (Forward.reaches _ _ _ heat)
    exact ⟨fun _ => ⟨fun _ => always_fail, fun _ => hc⟩, fun _ => hc⟩

theorem builds_read : Builds TypeRef.read own := by
  intro c
  rw [read, always_nested]
  exact builds_readTo _ c

end TypeRef

section Selections

variable {selection : Reader Selection} [Forward selection]

namespace SelectionSet

theorem builds_readBraced (h : Builds selection Selection.own) :
    Builds (readBraced selection) (Production.single .selectionSet) := by
  refine Surrounds.builds .selectionSet (.located fun c => ?_)
  simp only [always_bind, always_pure]
  intro _ c₁ hopen first c₂ hfirst rest d hrest span
  have hitems := (h c₁ first c₂ hfirst).append (h.whileMore c₂ rest d hrest)
  exact ⟨rfl, .from_reaches (Forward.reaches _ _ _ hopen) hitems⟩

theorem builds_readOf (h : Builds selection Selection.own) :
    Builds (readOf selection) (Production.single .selectionSet) := by
  intro c
  rw [readOf_eq, always_bind, always_at?, always_ite, always_pure]
  exact ⟨fun _ => builds_readBraced h c, fun _ => .absent rfl (.nil (.refl c))⟩

theorem builds_readBodyOf (expected : Construct) (h : Builds selection Selection.own) :
    Builds (readBodyOf expected selection) (Production.single .selectionSet) := by
  intro c
  rw [readBodyOf_eq, always_bind, always_at?, always_ite]
  exact ⟨fun _ => builds_readBraced h c, fun _ => always_fail⟩

end SelectionSet

theorem Field.builds_readOf (h : Builds selection Selection.own) :
    Builds (Field.readOf selection) (Production.single .field) := by
  refine Surrounds.builds .field (.located fun c => ?_)
  simp only [always_bind, always_pure]
  intro first c₁ hfirst second c₂ hsecond arguments c₃ harguments directives c₄ hdirectives s d hs span
  have hc := (Forward.reaches _ _ _ hfirst).trans (Forward.reaches _ _ _ hsecond)
  have hdirectives := (Argument.builds_readAll false _ _ _ harguments).append
    (Directive.builds_readAll false _ _ _ hdirectives)
  have hselections := SelectionSet.builds_readOf h _ s d hs
  exact ⟨rfl, .from_reaches hc (hdirectives.append hselections)⟩

omit [Forward selection] in
theorem FragmentSpread.builds_read :
    Builds FragmentSpread.read (Production.single .fragmentSpread) := by
  refine Surrounds.builds .fragmentSpread (.located fun c => ?_)
  simp only [always_bind, always_at?, always_ite, always_relabel, always_pure]
  intro _ c₁ heat
  refine ⟨fun _ => always_fail, fun _ name c₂ hname directives d hdirectives span => ?_⟩
  have hparts := (TypeName.builds_read _ name c₂ hname).append
    (Directive.builds_readAll false _ _ _ hdirectives)
  exact ⟨rfl, .from_reaches (Forward.reaches _ _ _ heat) hparts⟩

theorem InlineFragment.builds_readOf (h : Builds selection Selection.own) :
    Builds (InlineFragment.readOf selection) (Production.single .inlineFragment) := by
  refine Surrounds.builds .inlineFragment (.located fun c => ?_)
  simp only [always_bind, always_pure]
  intro _ c₁ heat condition c₂ hcondition directives c₃ hdirectives s d hs span
  have hdirectives := (TypeName.builds_read.behind _ _ _ _ hcondition).append
    (Directive.builds_readAll false _ _ _ hdirectives)
  have hselections := SelectionSet.builds_readBodyOf _ h _ s d hs
  exact ⟨rfl, .from_reaches (Forward.reaches _ _ _ heat) (hdirectives.append hselections)⟩

namespace Selection

/-- A fragment is read like one whose reader takes the ellipsis itself. -/
theorem always_nests_readFragmentOf {c : Cursor} (h : Builds selection own)
    (hn : c.next? = some (.punctuator .ellipsis)) :
    Always (readFragmentOf selection) c fun s d => c.Nests s.own d := by
  refine (always_readFragmentOf hn).mono fun s d hs => ?_
  cases s with
  | field f => exact hs.elim
  | spread s => exact FragmentSpread.builds_read c s d hs
  | «inline» f => exact InlineFragment.builds_readOf h c f d hs

omit [Forward selection] in
theorem builds_readTo (depth : Nat) : Builds (readTo depth) own := by
  induction depth with
  | zero => exact fun _ => always_fail
  | succ depth ih =>
    intro c
    rw [readTo, always_bind, always_peek]
    split
    · exact always_map.mpr (Field.builds_readOf ih c)
    · next hn => exact always_nests_readFragmentOf ih hn
    · exact always_fail

omit [Forward selection] in
theorem builds_read : Builds Selection.read own := by
  intro c
  rw [read, always_nested]
  exact builds_readTo _ c

end Selection

end Selections

theorem VariableDefinition.builds_read :
    Builds VariableDefinition.read (Production.single .variableDefinition) := by
  refine Surrounds.builds .variableDefinition (.located fun c => ?_)
  simp only [always_bind, always_pure]
  intro var c₁ hvar _ c₂ hcolon type c₃ htype default c₄ hdefault directives d hdirectives span
  have hvar := (Variable.builds_read _ _ _ hvar).reach (Forward.reaches _ _ _ hcolon)
  have hdefault := (hvar.append (TypeRef.builds_read _ _ _ htype)).append
    (Value.builds_readDefault _ _ _ hdefault)
  exact ⟨rfl, hdefault.append (Directive.builds_readAll true _ _ _ hdirectives)⟩

namespace OperationDefinition

theorem builds_readName :
    Builds readName? fun o => Production.parts .typeName o.toList := by
  intro c
  rw [readName?, always_bind, always_peek]
  split
  · refine always_map.mpr fun n d h => ?_
    simpa [Production.parts] using TypeName.builds_read c n d h
  · exact always_pure.mpr (.nil (.refl c))

theorem surrounds_read :
    Surrounds read (Production.span? .operationDefinition)
      (Production.children .operationDefinition) := by
  have hbraced : Surrounds readBraced (Production.span? .operationDefinition)
      (Production.children .operationDefinition) := by
    refine .located fun c => ?_
    simp only [always_bind, always_pure]
    exact fun s d hs span => ⟨rfl, SelectionSet.builds_readBraced Selection.builds_read c s d hs⟩
  have hlong : Surrounds readLong (Production.span? .operationDefinition)
      (Production.children .operationDefinition) := by
    refine .located fun c => ?_
    simp only [always_bind, always_relabel, always_pure]
    intro kind c₁ hkind name c₂ hname vars c₃ hvars directives c₄ hdirectives s d hs span
    have hvars := (builds_readName _ _ _ hname).append
      (VariableDefinition.builds_read.enclosed _ _ _ _ _ hvars)
    have hdirectives := hvars.append (Directive.builds_readAll false _ _ _ hdirectives)
    have hselections := SelectionSet.builds_readBodyOf _ Selection.builds_read _ s d hs
    exact ⟨rfl, .from_reaches (Forward.reaches _ _ _ hkind) (hdirectives.append hselections)⟩
  intro c
  rw [read_eq, always_bind, always_at?, always_ite]
  exact ⟨fun _ => hbraced c, fun _ => hlong c⟩

end OperationDefinition

theorem FragmentDefinition.surrounds_read :
    Surrounds FragmentDefinition.read (Production.span? .fragmentDefinition)
      (Production.children .fragmentDefinition) := by
  refine .located fun c => ?_
  simp only [always_bind, always_at?, always_ite, always_pure]
  intro _ c₁ hkeyword
  refine ⟨fun _ => always_fail, fun _ name c₂ hname _ c₃ hon condition c₄ hcondition directives c₅
    hdirectives s d hs span => ?_⟩
  have hname := (TypeName.builds_read _ _ _ hname).reach (Forward.reaches _ _ _ hon)
  have hdirectives := (hname.append (TypeName.builds_read _ _ _ hcondition)).append
    (Directive.builds_readAll false _ _ _ hdirectives)
  have hselections := SelectionSet.builds_readBodyOf _ Selection.builds_read _ s d hs
  exact ⟨rfl, .from_reaches (Forward.reaches _ _ _ hkeyword) (hdirectives.append hselections)⟩

theorem StringValue.builds_readDescription :
    Builds StringValue.readDescription? fun o => Production.parts .stringValue o.toList := by
  intro c
  have hread : Always (some <$> StringValue.read) c fun o d =>
      c.Nests (Production.parts .stringValue o.toList) d := by
    refine always_map.mpr fun s d h => ?_
    simpa [Production.parts] using StringValue.builds_read c s d h
  rw [readDescription?, always_bind, always_peek]
  split
  · exact hread
  · exact hread
  · exact always_pure.mpr (.nil (.refl c))

theorem InputValueDefinition.builds_read :
    Builds InputValueDefinition.read (Production.single .inputValueDefinition) := by
  refine Surrounds.builds .inputValueDefinition (.located fun c => ?_)
  simp only [always_bind, always_pure]
  intro description c₁ hdescription name c₂ hname _ c₃ hcolon type c₄ htype default c₅ hdefault
    directives d hdirectives span
  have hname := (StringValue.builds_readDescription _ _ _ hdescription).reach
    ((Forward.reaches _ _ _ hname).trans (Forward.reaches _ _ _ hcolon))
  have hdefault := (hname.append (TypeRef.builds_read _ _ _ htype)).append
    (Value.builds_readDefault _ _ _ hdefault)
  exact ⟨rfl, hdefault.append (Directive.builds_readAll true _ _ _ hdirectives)⟩

section Definitions

variable (constant : Bool)

theorem FieldDefinition.builds_read :
    Builds (FieldDefinition.read constant) (Production.single .fieldDefinition) := by
  refine Surrounds.builds .fieldDefinition (.located fun c => ?_)
  simp only [always_bind, always_pure]
  intro description c₁ hdescription name c₂ hname arguments c₃ harguments _ c₄ hcolon type c₅ htype
    directives d hdirectives span
  have hname := (StringValue.builds_readDescription _ _ _ hdescription).reach
    (Forward.reaches _ _ _ hname)
  have harguments := InputValueDefinition.builds_read.enclosed _ _ _ _ _ harguments
  have htype := ((hname.append harguments).reach (Forward.reaches _ _ _ hcolon)).append
    (TypeRef.builds_read _ _ _ htype)
  exact ⟨rfl, htype.append (Directive.builds_readAll constant _ _ _ hdirectives)⟩

theorem EnumValueDefinition.builds_read :
    Builds (EnumValueDefinition.read constant) (Production.single .enumValueDefinition) := by
  refine Surrounds.builds .enumValueDefinition (.located fun c => ?_)
  simp only [always_bind, always_pure]
  intro description c₁ hdescription name c₂ hname directives d hdirectives span
  have hname := (StringValue.builds_readDescription _ _ _ hdescription).reach
    (Forward.reaches _ _ _ hname)
  exact ⟨rfl, hname.append (Directive.builds_readAll constant _ _ _ hdirectives)⟩

end Definitions

theorem TypeName.builds_readListBehind (introducer : Token) (separator : Punctuator) :
    Builds (TypeName.readListBehind introducer separator) (Production.parts .typeName) := by
  intro c ns d hr
  obtain ⟨found, c₁, heat, hr⟩ := bind_eq_ok.mp hr
  have hc := Forward.reaches c found c₁ heat
  split at hr
  · exact .from_reaches hc (TypeName.builds_read.separated separator c₁ ns d hr)
  · obtain ⟨⟩ := hr
    exact .nil hc

theorem TypeContent.nests_readWithDirectives (kind : TypeKind) (c : Cursor) :
    Always (readWithDirectives kind) c fun p d =>
      c.Nests (p.2.head ++ Production.parts .directive p.1 ++ p.2.tail) d := by
  have hdirectives := Directive.builds_readAll true
  cases kind with
  | scalar =>
    simp only [readWithDirectives, always_bind, always_pure]
    intro ds d hds
    simpa [head, tail] using hdirectives _ _ _ hds
  | object | interface =>
    simp only [readWithDirectives, always_bind, always_pure]
    intro interfaces c₁ hinterfaces ds c₂ hds fields d hfields
    have hfields := (FieldDefinition.builds_read true).enclosed _ _ _ _ _ hfields
    exact ((TypeName.builds_readListBehind _ _ _ _ _ hinterfaces).append
      (hdirectives _ _ _ hds)).append hfields
  | union =>
    simp only [readWithDirectives, always_bind, always_pure]
    intro ds c₁ hds members d hmembers
    exact (hdirectives _ _ _ hds).append (TypeName.builds_readListBehind _ _ _ _ _ hmembers)
  | enum =>
    simp only [readWithDirectives, always_bind, always_pure]
    intro ds c₁ hds values d hvalues
    have hvalues := (EnumValueDefinition.builds_read true).enclosed _ _ _ _ _ hvalues
    exact (hdirectives _ _ _ hds).append hvalues
  | inputObject =>
    simp only [readWithDirectives, always_bind, always_pure]
    intro ds c₁ hds fields d hfields
    have hfields := InputValueDefinition.builds_read.enclosed _ _ _ _ _ hfields
    exact (hdirectives _ _ _ hds).append hfields

theorem RootOperationType.builds_read :
    Builds RootOperationType.read (Production.single .rootOperationType) := by
  refine Surrounds.builds .rootOperationType (.located fun c => ?_)
  simp only [always_bind, always_pure]
  intro kind c₁ hkind _ c₂ hcolon type d htype span
  have hc := (Forward.reaches _ _ _ hkind).trans (Forward.reaches _ _ _ hcolon)
  exact ⟨rfl, .from_reaches hc (TypeName.builds_read _ _ _ htype)⟩

section Bodies

variable {description : Option StringValue} {b c : Cursor}

theorem TypeDefinition.nests_readBody {kind : TypeKind}
    (hb : b.Nests (Production.parts .stringValue description.toList) c) :
    Always (readBody kind description) c fun f d =>
      ∀ span, (f span).span = span ∧ b.Nests (f span).children d := by
  simp only [readBody, always_bind, always_pure]
  intro name c₁ hname p d hp span
  have hcontent := TypeContent.nests_readWithDirectives kind c₁ p d hp
  exact ⟨trivial, (hb.append (TypeName.builds_read _ _ _ hname)).append hcontent⟩

theorem SchemaDefinition.nests_readParts
    (hb : b.Nests (Production.parts .stringValue description.toList) c) :
    Always (readParts description) c fun f d =>
      ∀ span, (f span).span = span ∧
        b.Nests (Production.children .schemaDefinition (f span)) d := by
  simp only [readParts, always_bind, always_pure]
  intro directives c₁ hdirectives types d htypes span
  have hdirectives := hb.append (Directive.builds_readAll true _ _ _ hdirectives)
  exact ⟨trivial, hdirectives.append (RootOperationType.builds_read.enclosed _ _ _ _ _ htypes)⟩

theorem SchemaDefinition.nests_readBody
    (hb : b.Nests (Production.parts .stringValue description.toList) c) :
    Always (readBody description) c fun f d =>
      ∀ span, (f span).span = span ∧
        b.Nests (Production.children .schemaDefinition (f span)) d := by
  rw [readBody, always_bind]
  refine (nests_readParts hb).mono fun f d hf => ?_
  rw [always_ite, always_pure]
  exact ⟨fun _ => always_fail, fun _ => hf⟩

theorem DirectiveDefinition.nests_readBody
    (hb : b.Nests (Production.parts .stringValue description.toList) c) :
    Always (readBody description) c fun f d =>
      ∀ span, (f span).span = span ∧
        b.Nests (Production.children .directiveDefinition (f span)) d := by
  simp only [readBody, always_bind, always_pure]
  intro _ c₁ hat name c₂ hname arguments c₃ harguments repeatable c₄ hrepeatable _ c₅ hon locations d
    hlocations span
  have hname := hb.reach ((Forward.reaches _ _ _ hat).trans (Forward.reaches _ _ _ hname))
  have harguments := InputValueDefinition.builds_read.enclosed _ _ _ _ _ harguments
  have hc := ((Forward.reaches _ _ _ hrepeatable).trans (Forward.reaches _ _ _ hon)).trans
    (Forward.reaches _ _ _ hlocations)
  exact ⟨trivial, (hname.append harguments).reach hc⟩

end Bodies

namespace TypeDefinition

theorem builds_read : Builds TypeDefinition.read (Production.single .typeDefinition) := by
  refine Surrounds.builds .typeDefinition (.located fun c => ?_)
  simp only [always_bind]
  intro description c₁ hdescription kind c₂ hkind
  have hb := (StringValue.builds_readDescription _ _ _ hdescription).reach
    (Forward.reaches _ _ _ hkind)
  exact (nests_readBody hb).mono fun f d hf span => ⟨congrArg some (hf span).1, (hf span).2⟩

theorem builds_readOf (kind : TypeKind) :
    Builds (readOf kind) (Production.single (.typeDefinitionOf kind)) := by
  refine Surrounds.builds (.typeDefinitionOf kind) (.located fun c => ?_)
  simp only [always_bind]
  intro description c₁ hdescription _ c₂ hkind
  have hb := (StringValue.builds_readDescription _ _ _ hdescription).reach
    (Forward.reaches _ _ _ hkind)
  exact (nests_readBody hb).mono fun f d hf span => ⟨congrArg some (hf span).1, (hf span).2⟩

end TypeDefinition

theorem SchemaDefinition.builds_read :
    Builds SchemaDefinition.read (Production.single .schemaDefinition) := by
  refine Surrounds.builds .schemaDefinition (.located fun c => ?_)
  simp only [always_bind]
  intro description c₁ hdescription _ c₂ hkeyword
  have hb := (StringValue.builds_readDescription _ _ _ hdescription).reach
    (Forward.reaches _ _ _ hkeyword)
  exact (nests_readBody hb).mono fun f d hf span => ⟨congrArg some (hf span).1, (hf span).2⟩

theorem DirectiveDefinition.builds_read :
    Builds DirectiveDefinition.read (Production.single .directiveDefinition) := by
  refine Surrounds.builds .directiveDefinition (.located fun c => ?_)
  simp only [always_bind]
  intro description c₁ hdescription _ c₂ hkeyword
  have hb := (StringValue.builds_readDescription _ _ _ hdescription).reach
    (Forward.reaches _ _ _ hkeyword)
  exact (nests_readBody hb).mono fun f d hf span => ⟨congrArg some (hf span).1, (hf span).2⟩

namespace Definition

theorem nests_readTypeSystem (c : Cursor) :
    Always readTypeSystem c fun n d =>
      n.part.span? = some ⟨c.nextSpan.start, max d.lastEnd c.nextSpan.start⟩ ∧
        c.Nests n.part.children d := by
  rw [readTypeSystem, always_located, always_bind]
  intro description c₁ hdescription
  rw [always_bind]
  intro part c₂ hpart
  have hb := (StringValue.builds_readDescription _ _ _ hdescription).reach
    (Forward.reaches _ _ _ hpart)
  cases part with
  | schema =>
    rw [always_bind]
    refine (SchemaDefinition.nests_readBody hb).mono fun f d hf => ?_
    exact always_pure.mpr ⟨congrArg some (hf _).1, (hf _).2⟩
  | directive =>
    rw [always_bind]
    refine (DirectiveDefinition.nests_readBody hb).mono fun f d hf => ?_
    exact always_pure.mpr ⟨congrArg some (hf _).1, (hf _).2⟩
  | type kind =>
    rw [always_bind]
    refine (TypeDefinition.nests_readBody hb).mono fun f d hf => ?_
    exact always_pure.mpr ⟨congrArg some (hf _).1, (hf _).2⟩

theorem nests_readExtension (c : Cursor) :
    Always readExtension c fun n d =>
      n.part.span? = some ⟨c.nextSpan.start, max d.lastEnd c.nextSpan.start⟩ ∧
        c.Nests n.part.children d := by
  rw [readExtension, always_located, always_bind]
  intro _ c₁ hkeyword
  rw [always_bind]
  intro kind c₂ hkind
  have hb : c.Nests (Production.parts .stringValue (none : Option StringValue).toList) c₂ :=
    .nil ((Forward.reaches _ _ _ hkeyword).trans (Forward.reaches _ _ _ hkind))
  cases kind with
  | none =>
    rw [always_bind]
    refine (SchemaDefinition.nests_readParts hb).mono fun f d hf => ?_
    rw [always_ite, always_pure]
    exact ⟨fun _ => always_fail, fun _ => ⟨congrArg some (hf _).1, (hf _).2⟩⟩
  | some kind =>
    rw [always_bind]
    refine (TypeDefinition.nests_readBody hb).mono fun f d hf => ?_
    rw [always_ite, always_pure]
    exact ⟨fun _ => always_fail, fun _ => ⟨congrArg some (hf _).1, (hf _).2⟩⟩

theorem nests_read (c : Cursor) :
    Always read c fun n d =>
      n.part.span? = some ⟨c.nextSpan.start, max d.lastEnd c.nextSpan.start⟩ ∧
        c.Nests n.part.children d := by
  have hoperation : Always (operation <$> OperationDefinition.read) c fun n d =>
      n.part.span? = some ⟨c.nextSpan.start, max d.lastEnd c.nextSpan.start⟩ ∧
        c.Nests n.part.children d :=
    always_map.mpr ((OperationDefinition.surrounds_read c).mono fun _ _ h => ⟨h.1, h.2.2⟩)
  rw [read, always_bind, always_peek]
  split
  · exact hoperation
  · exact nests_readTypeSystem c
  · exact nests_readTypeSystem c
  · exact always_map.mpr ((FragmentDefinition.surrounds_read c).mono fun _ _ h => ⟨h.1, h.2.2⟩)
  · exact nests_readExtension c
  · simp only [always_ite]
    exact ⟨fun _ => hoperation, fun _ => ⟨fun _ => nests_readTypeSystem c, fun _ => always_fail⟩⟩
  · exact always_fail

/-- A definition and the node that it is have one span. -/
theorem builds_read : Builds read (Production.single .definition) := by
  refine Surrounds.builds .definition fun c n d hr => ?_
  have hlt := Consuming.length_lt c n d hr
  obtain ⟨hspan, hchildren⟩ := nests_read c n d hr
  have hsame : Production.span? .definition n = n.part.span? := by
    cases n <;> rfl
  exact ⟨hsame.trans hspan, hlt, .node (.refl c) hspan hlt hchildren (.nil (.refl d))⟩

end Definition

theorem Document.builds_read : Builds Document.read (Production.single .document) := by
  refine Surrounds.builds .document fun c n d hr => ?_
  obtain ⟨hdefinitions, hspan⟩ := eq_of_read hr
  obtain ⟨ws, hne, ht, -⟩ := (severable_read c n d hr).takes
  exact ⟨congrArg some hspan, ht.length_lt hne,
    Definition.builds_read.whileMore c n.definitions d hdefinitions⟩

/-- What a node of a production comes to: the node itself, if it has a span, and else its children. -/
def Production.own (p : Production) (n : p.Node) : List Part :=
  match p.span? n with
  | some _ => p.single n
  | none => p.children n

theorem Production.builds_read (p : Production) : Builds p.read p.own := by
  cases p with
  | «variable» => exact Variable.builds_read
  | typeName => exact TypeName.builds_read
  | enumValue => exact Literal.builds_readEnum
  | intValue => exact Literal.builds_readInt
  | floatValue => exact Literal.builds_readFloat
  | booleanValue => exact BooleanValue.builds_read
  | stringValue => exact StringValue.builds_read
  | value => exact Value.builds_read false
  | listValue => exact ListValue.builds_read (Value.builds_read false)
  | objectValue => exact ObjectValue.builds_read (Value.builds_read false)
  | objectField => exact ObjectField.builds_read (Value.builds_read false)
  | argument => exact Argument.builds_read false
  | arguments => exact Argument.builds_readAll false
  | directive => exact Directive.builds_read false
  | directives => exact Directive.builds_readAll false
  | selectionSet => exact SelectionSet.builds_readOf Selection.builds_read
  | selection => exact Selection.builds_read
  | field => exact Field.builds_readOf Selection.builds_read
  | fragmentSpread => exact FragmentSpread.builds_read
  | inlineFragment => exact InlineFragment.builds_readOf Selection.builds_read
  | type => exact TypeRef.builds_read
  | variableDefinition => exact VariableDefinition.builds_read
  | variableDefinitions => exact VariableDefinition.builds_read.enclosed _ _
  | operationKind => exact .nil OperationKind.read
  | operationDefinition => exact OperationDefinition.surrounds_read.builds .operationDefinition
  | fragmentDefinition => exact FragmentDefinition.surrounds_read.builds .fragmentDefinition
  | inputValueDefinition => exact InputValueDefinition.builds_read
  | argumentsDefinition => exact InputValueDefinition.builds_read.enclosed _ _
  | inputFieldsDefinition => exact InputValueDefinition.builds_read.enclosed _ _
  | fieldDefinition => exact FieldDefinition.builds_read false
  | fieldsDefinition => exact (FieldDefinition.builds_read false).enclosed _ _
  | enumValueDefinition => exact EnumValueDefinition.builds_read false
  | enumValuesDefinition => exact (EnumValueDefinition.builds_read false).enclosed _ _
  | implementsInterfaces => exact TypeName.builds_readListBehind _ _
  | unionMemberTypes => exact TypeName.builds_readListBehind _ _
  | typeDefinition => exact TypeDefinition.builds_read
  | typeDefinitionOf kind => exact TypeDefinition.builds_readOf kind
  | rootOperationType => exact RootOperationType.builds_read
  | rootOperationTypes => exact RootOperationType.builds_read.enclosed _ _
  | schemaDefinition => exact SchemaDefinition.builds_read
  | directiveLocation => exact .nil DirectiveLocation.read
  | directiveLocations => exact .nil DirectiveLocation.readAll
  | directiveDefinition => exact DirectiveDefinition.builds_read
  | definition => exact Definition.builds_read
  | document => exact Document.builds_read

end GraphQLText
