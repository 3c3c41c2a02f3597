import GraphQLText.Proofs.Locality.Severable

/-!
# Where the nodes were read

Every node of a document was read on the way through the source, from the place where its span begins
to the one where it ends. That is shown of a node by showing it of its parts, one behind the other.
-/

namespace GraphQLText

set_option autoImplicit false

open Reader

structure Part.ReadAt (x : Part) (c d : Cursor) : Prop where
  span : x.span? = some ⟨c.nextSpan.start, max d.lastEnd c.nextSpan.start⟩
  severed : x.Severed c d

namespace Cursor

structure Passes (c : Cursor) (xs : List Part) (d : Cursor) : Prop where
  reaches : c.Reaches d
  parts : ∀ x ∈ xs, ∃ c' d', c.Reaches c' ∧ x.ReadAt c' d'

variable {c d e : Cursor} {xs ys : List Part}

theorem Reaches.passes (h : c.Reaches d) : c.Passes [] d :=
  ⟨h, by simp⟩

theorem Passes.cons {x : Part} (h : c.Passes xs d) (hx : x.ReadAt c d) : c.Passes (x :: xs) d where
  reaches := h.reaches
  parts := List.forall_mem_cons.mpr ⟨⟨c, d, .refl c, hx⟩, h.parts⟩

theorem Reaches.append (h : c.Reaches d) (hy : d.Passes ys e) : c.Passes ys e where
  reaches := h.trans hy.reaches
  parts y hmem := by
    obtain ⟨c', d', hc, hread⟩ := hy.parts y hmem
    exact ⟨c', d', h.trans hc, hread⟩

theorem Passes.append (hx : c.Passes xs d) (hy : d.Passes ys e) : c.Passes (xs ++ ys) e where
  reaches := hx.reaches.trans hy.reaches
  parts := List.forall_mem_append.mpr ⟨hx.parts, (hx.reaches.append hy).parts⟩

theorem Passes.reach (hx : c.Passes xs d) (h : d.Reaches e) : c.Passes xs e :=
  ⟨hx.reaches.trans h, hx.parts⟩

end Cursor

namespace Reader

variable {α β : Type}

/-- On the way to the node, all of the others are read. -/
def Covers (r : Reader α) (a : α) (xs : List Part) : Prop :=
  ∀ c d, r c = .ok (a, d) → c.Passes xs d

section Items

variable {item : Reader α} {nodes : α → List Part}

theorem covers_whileMore {more : Reader Bool} [Forward more] {as : List α}
    (h : ∀ a ∈ as, Covers item a (nodes a)) :
    Covers (whileMore more item) as (as.flatMap nodes) := by
  induction as with
  | nil =>
    intro c last hw
    rcases whileMore_eq_ok.mp hw with ⟨hm, -⟩ | ⟨d, a, e, hm, hi, hrest⟩
    · exact (Forward.reaches c false last hm).passes
    · split at hrest
      · obtain ⟨bs, -, hnil⟩ := hrest
        exact absurd hnil (by simp)
      · exact absurd hrest.1 (by simp)
  | cons a as ih =>
    intro c last hw
    rw [List.forall_mem_cons] at h
    rcases whileMore_eq_ok.mp hw with ⟨-, hnil⟩ | ⟨d, a', e, hm, hi, hrest⟩
    · exact absurd hnil (by simp)
    · have hd := Forward.reaches c true d hm
      rw [List.flatMap_cons]
      split at hrest
      · obtain ⟨bs, hbs, heq⟩ := hrest
        obtain ⟨rfl, rfl⟩ := List.cons.inj heq
        exact (hd.append (h.1 d e hi)).append (ih h.2 e last hbs)
      · obtain ⟨heq, rfl⟩ := hrest
        obtain ⟨rfl, rfl⟩ := List.cons.inj heq
        exact (hd.append (h.1 d last hi)).append (Cursor.Reaches.refl last).passes

theorem covers_untilClosed {close : Punctuator} {as : List α}
    (h : ∀ a ∈ as, Covers item a (nodes a)) :
    Covers (untilClosed close item) as (as.flatMap nodes) :=
  covers_whileMore h

theorem covers_enclosed {opening close : Punctuator} {as : List α}
    (h : ∀ a ∈ as, Covers item a (nodes a)) :
    Covers (enclosed opening close item) as (as.flatMap nodes) := by
  intro c d hr
  obtain ⟨opened, c₁, heat, hr⟩ := bind_eq_ok.mp hr
  have hc := Forward.reaches c opened c₁ heat
  split at hr
  · obtain ⟨first, c₂, hfirst, hr⟩ := bind_eq_ok.mp hr
    obtain ⟨rest, c₃, hrest, ⟨⟩⟩ := bind_eq_ok.mp hr
    rw [List.forall_mem_cons] at h
    exact (hc.append (h.1 c₁ c₂ hfirst)).append (covers_untilClosed h.2 c₂ _ hrest)
  · obtain ⟨⟩ := hr
    exact hc.passes

theorem covers_separated {separator : Punctuator} {as : List α}
    (h : ∀ a ∈ as, Covers item a (nodes a)) :
    Covers (separated separator item) as (as.flatMap nodes) := by
  intro c d hr
  obtain ⟨led, c₁, heat, hr⟩ := bind_eq_ok.mp hr
  obtain ⟨first, c₂, hfirst, hr⟩ := bind_eq_ok.mp hr
  obtain ⟨rest, c₃, hrest, ⟨⟩⟩ := bind_eq_ok.mp hr
  rw [List.forall_mem_cons] at h
  have hc := Forward.reaches c led c₁ heat
  exact (hc.append (h.1 c₁ c₂ hfirst)).append (covers_whileMore h.2 c₂ _ hrest)

theorem covers_behind {t : Token} {o : Option α} (h : ∀ a ∈ o, Covers item a (nodes a)) :
    Covers (behind? t item) o (o.toList.flatMap nodes) := by
  intro c d hr
  obtain ⟨found, c₁, heat, hr⟩ := bind_eq_ok.mp hr
  have hc := Forward.reaches c found c₁ heat
  split at hr
  · rw [← bind_pure_comp] at hr
    obtain ⟨a, c₂, ha, ⟨⟩⟩ := bind_eq_ok.mp hr
    simpa using hc.append (h a rfl c₁ _ ha)
  · obtain ⟨⟩ := hr
    exact hc.passes

end Items

/-- What the reader takes for a node of the production spans the bytes of that node, and the parts of
the node are read on the way. -/
def Encloses (p : Production) (r : Reader p.Node) (parts : p.Node → List Part) (c : Cursor) :
    Prop :=
  Always r c fun n d =>
    p.span? n = some ⟨c.nextSpan.start, max d.lastEnd c.nextSpan.start⟩ ∧ c.Passes (parts n) d

theorem Encloses.covers {p : Production} {r : Reader p.Node} {parts : p.Node → List Part}
    {n : p.Node} (h : ∀ c, Encloses p r parts c) (hs : Severable p r) :
    Covers r n (⟨p, n⟩ :: parts n) := by
  intro c d hr
  obtain ⟨hspan, hparts⟩ := h c n d hr
  exact hparts.cons ⟨hspan, hs c n d hr⟩

theorem Encloses.leaf {p : Production} {r : Reader (Span → p.Node)} [Forward r]
    (h : ∀ c, Always r c fun f _ => ∀ span, p.span? (f span) = some span) (c : Cursor) :
    Encloses p (located r) (fun _ => []) c := by
  intro n d hr
  obtain ⟨f, hf, rfl⟩ := located_eq_ok.mp hr
  exact ⟨h c f d hf _, (Forward.reaches c f d hf).passes⟩

end Reader

theorem TypeName.covers_read (n : TypeName) : Covers TypeName.read n n.nodes := by
  refine Encloses.covers (Encloses.leaf ?_) severable_read
  simp only [always_bind, always_pure]
  exact fun _ _ _ _ _ => rfl

theorem Variable.covers_read (v : Variable) : Covers Variable.read v v.nodes := by
  refine Encloses.covers (Encloses.leaf ?_) severable_read
  simp only [always_bind, always_pure]
  exact fun _ _ _ _ _ _ _ _ => rfl

theorem StringValue.covers_read (s : StringValue) : Covers StringValue.read s s.nodes := by
  refine Encloses.covers (Encloses.leaf ?_) severable_read
  simp only [always_bind, always_pure]
  exact fun _ _ _ _ _ => rfl

theorem BooleanValue.covers_read (b : BooleanValue) :
    Covers BooleanValue.read b [⟨.booleanValue, b⟩] := by
  refine Encloses.covers (Encloses.leaf ?_) severable_read
  simp only [always_bind, always_pure]
  exact fun _ _ _ _ _ => rfl

namespace Literal

theorem covers_readInt (l : Literal) : Covers readInt l [⟨.intValue, l⟩] := by
  refine Encloses.covers (Encloses.leaf ?_) severable_readInt
  simp only [always_bind, always_pure]
  exact fun _ _ _ _ _ => rfl

theorem covers_readFloat (l : Literal) : Covers readFloat l [⟨.floatValue, l⟩] := by
  refine Encloses.covers (Encloses.leaf ?_) severable_readFloat
  simp only [always_bind, always_pure]
  exact fun _ _ _ _ _ => rfl

theorem covers_readEnum (l : Literal) : Covers readEnum l [⟨.enumValue, l⟩] := by
  refine Encloses.covers (Encloses.leaf ?_) severable_readEnum
  simp only [always_bind, always_pure]
  exact fun _ _ _ _ _ => rfl

end Literal

section Values

variable {constant : Bool}

theorem NamedValue.passes_of_read {expected : Construct} {n : NamedValue Value} {c d : Cursor}
    (h : NamedValue.read expected (Value.read constant) c = .ok (n, d))
    (hvalue : Covers (Value.read constant) n.value n.value.nodes) :
    n.span = ⟨c.nextSpan.start, max d.lastEnd c.nextSpan.start⟩ ∧ c.Passes n.value.nodes d := by
  obtain ⟨f, hf, rfl⟩ := located_eq_ok.mp h
  obtain ⟨name, c₁, hname, hf⟩ := bind_eq_ok.mp hf
  obtain ⟨_, c₂, hcolon, hf⟩ := bind_eq_ok.mp hf
  obtain ⟨value, c₃, hv, ⟨⟩⟩ := bind_eq_ok.mp hf
  have hc := (Forward.reaches _ _ _ hname).trans (Forward.reaches _ _ _ hcolon)
  exact ⟨rfl, hc.append (hvalue c₂ _ hv)⟩

theorem Bracketed.passes_of_read {α : Type} {item : Reader α} {nodes : α → List Part}
    {opening close : Punctuator} {expected : Construct} {b : Bracketed α} {c d : Cursor}
    (h : Bracketed.read opening close expected item c = .ok (b, d))
    (hitems : ∀ a ∈ b.items, Covers item a (nodes a)) :
    b.span = ⟨c.nextSpan.start, max d.lastEnd c.nextSpan.start⟩ ∧
      c.Passes (b.items.flatMap nodes) d := by
  obtain ⟨f, hf, rfl⟩ := located_eq_ok.mp h
  obtain ⟨_, c₁, hopen, hf⟩ := bind_eq_ok.mp hf
  obtain ⟨items, c₂, hi, ⟨⟩⟩ := bind_eq_ok.mp hf
  exact ⟨rfl, (Forward.reaches _ _ _ hopen).append (covers_untilClosed hitems c₁ _ hi)⟩

theorem ObjectField.covers_read {f : ObjectField}
    (hvalue : Covers (Value.read constant) f.value f.value.nodes) :
    Covers (ObjectField.read constant) f f.nodes := by
  intro c d h
  obtain ⟨hspan, hparts⟩ := NamedValue.passes_of_read h hvalue
  exact hparts.cons ⟨congrArg some hspan, severable_read c f d h⟩

theorem Value.covers_read (v : Value) : Covers (Value.read constant) v v.nodes := by
  induction v using Value.induction with
  | var v => exact fun c d h => v.covers_read c d (always_read constant c _ d h)
  | int l => exact fun c d h => l.covers_readInt c d (always_read constant c _ d h)
  | float l => exact fun c d h => l.covers_readFloat c d (always_read constant c _ d h)
  | string s => exact fun c d h => s.covers_read c d (always_read constant c _ d h)
  | boolean b => exact fun c d h => b.covers_read c d (always_read constant c _ d h)
  | null => exact fun c d h => (Forward.reaches c _ d h).passes
  | enum l => exact fun c d h => l.covers_readEnum c d (always_read constant c _ d h)
  | list l ih =>
    intro c d h
    have hread := always_read constant c _ d h
    obtain ⟨hspan, hitems⟩ := Bracketed.passes_of_read hread ih
    rw [nodes_list]
    exact hitems.cons ⟨congrArg some hspan, ListValue.severable_read c l d hread⟩
  | object o ih =>
    intro c d h
    have hread := always_read constant c _ d h
    obtain ⟨hspan, hitems⟩ := Bracketed.passes_of_read hread fun f hf =>
      ObjectField.covers_read (ih f hf)
    rw [nodes_object]
    exact hitems.cons ⟨congrArg some hspan, ObjectValue.severable_read c o d hread⟩

theorem Argument.covers_read (a : Argument) : Covers (Argument.read constant) a a.nodes := by
  intro c d h
  obtain ⟨hspan, hparts⟩ := NamedValue.passes_of_read h a.value.covers_read
  exact hparts.cons ⟨congrArg some hspan, severable_read c a d h⟩

theorem Argument.covers_readAll (as : List Argument) :
    Covers (Argument.readAll constant) as (as.flatMap Argument.nodes) :=
  covers_enclosed fun a _ => a.covers_read

theorem Value.covers_readDefault (o : Option Value) :
    Covers Value.readDefault? o (o.toList.flatMap Value.nodes) :=
  covers_behind fun v _ => v.covers_read

theorem Directive.encloses_read (c : Cursor) :
    Encloses .directive (Directive.read constant) (fun d => d.arguments.flatMap Argument.nodes)
      c := by
  simp only [Encloses, read, always_located, always_bind, always_pure]
  intro _ c₁ hat name c₂ hname arguments c₃ harguments
  have hc := (Forward.reaches _ _ _ hat).trans (Forward.reaches _ _ _ hname)
  exact ⟨rfl, hc.append (Argument.covers_readAll _ _ _ harguments)⟩

theorem Directive.covers_read (d : Directive) : Covers (Directive.read constant) d d.nodes :=
  Encloses.covers encloses_read severable_read

theorem Directive.covers_readAll (ds : List Directive) :
    Covers (Directive.readAll constant) ds (ds.flatMap Directive.nodes) :=
  covers_whileMore fun d _ => d.covers_read

end Values

/-- A type reference has no nodes but the name in it. -/
theorem TypeRef.covers_readTo (depth : Nat) (t : TypeRef) :
    Covers (TypeRef.readTo depth) t t.nodes := by
  induction depth generalizing t with
  | zero =>
    rintro c d ⟨⟩
  | succ depth ih =>
    have hunmarked : ∀ c, Always (readUnmarked (readTo depth)) c fun t d => c.Passes t.nodes d := by
      intro c
      rw [readUnmarked, always_bind, always_peek]
      split
      · simp only [always_bind, always_pure, always_skip]
        intro inner c₁ hinner _ d hclose
        have hc := c.reaches_advance.append (ih inner _ _ hinner)
        exact hc.reach (Forward.reaches _ _ _ hclose)
      · rw [always_map]
        exact fun n d h => n.covers_read c d h
      · exact always_fail
    intro c d h
    refine (?_ : Always (readTo (depth + 1)) c fun t d => c.Passes t.nodes d) t d h
    simp only [readTo, always_bind, always_ite, always_at?, always_pure]
    intro unmarked c₁ hu found c₂ heat
    have hc := (hunmarked c unmarked c₁ hu).reach (Forward.reaches _ _ _ heat)
    exact ⟨fun _ => ⟨fun _ => always_fail, fun _ => hc⟩, fun _ => hc⟩

theorem TypeRef.covers_read (t : TypeRef) : Covers TypeRef.read t t.nodes :=
  fun _ => TypeRef.covers_readTo _ t _

section Selections

variable {s : SelectionSet}

theorem SelectionSet.covers_readBraced (h : ∀ a ∈ s.items, Covers Selection.read a a.nodes) :
    Covers (readBraced Selection.read) s s.nodes := by
  intro c d hr
  have hs := severable_readBraced c s d hr
  obtain ⟨f, hf, rfl⟩ := located_eq_ok.mp hr
  obtain ⟨_, c₁, hopen, hf⟩ := bind_eq_ok.mp hf
  obtain ⟨first, c₂, hfirst, hf⟩ := bind_eq_ok.mp hf
  obtain ⟨rest, c₃, hrest, ⟨⟩⟩ := bind_eq_ok.mp hf
  rw [List.forall_mem_cons] at h
  have hc := (Forward.reaches _ _ _ hopen).append (h.1 c₁ c₂ hfirst)
  exact (hc.append (covers_untilClosed h.2 c₂ _ hrest)).cons ⟨rfl, hs⟩

theorem SelectionSet.covers_read (h : ∀ a ∈ s.items, Covers Selection.read a a.nodes) :
    Covers SelectionSet.read s s.nodes := by
  intro c d hr
  rw [read, readOf_eq] at hr
  obtain ⟨found, c₁, hat, hr⟩ := bind_eq_ok.mp hr
  have hc := Forward.reaches c found c₁ hat
  split at hr
  · exact hc.append (covers_readBraced h c₁ d hr)
  · obtain ⟨⟩ := hr
    exact hc.passes

theorem SelectionSet.covers_readBody {expected : Construct}
    (h : ∀ a ∈ s.items, Covers Selection.read a a.nodes) :
    Covers (readBodyOf expected Selection.read) s s.nodes := by
  intro c d hr
  obtain ⟨found, c₁, hat, hr⟩ := bind_eq_ok.mp hr
  have hc := Forward.reaches c found c₁ hat
  split at hr
  · exact hc.append (covers_read h c₁ d hr)
  · obtain ⟨⟩ := hr

end Selections

theorem Field.covers_read {f : Field}
    (h : ∀ a ∈ f.selections.items, Covers Selection.read a a.nodes) :
    Covers Field.read f (⟨.field, f⟩ :: f.parts) := by
  intro c d hr
  have hs := severable_read c f d hr
  obtain ⟨g, hg, rfl⟩ := located_eq_ok.mp hr
  obtain ⟨first, c₁, hfirst, hg⟩ := bind_eq_ok.mp hg
  obtain ⟨second, c₂, hsecond, hg⟩ := bind_eq_ok.mp hg
  obtain ⟨arguments, c₃, harguments, hg⟩ := bind_eq_ok.mp hg
  obtain ⟨directives, c₄, hdirectives, hg⟩ := bind_eq_ok.mp hg
  obtain ⟨selections, c₅, hselections, ⟨⟩⟩ := bind_eq_ok.mp hg
  have hc := (Forward.reaches _ _ _ hfirst).trans (Forward.reaches _ _ _ hsecond)
  have hparts := ((hc.append (Argument.covers_readAll _ _ _ harguments)).append
    (Directive.covers_readAll _ _ _ hdirectives)).append
    (SelectionSet.covers_read h _ _ hselections)
  exact hparts.cons ⟨rfl, hs⟩

theorem FragmentSpread.passes_of_read {s : FragmentSpread} {c d : Cursor}
    (hn : c.next? = some (.punctuator .ellipsis)) (h : FragmentSpread.read c = .ok (s, d)) :
    c.Passes (⟨.fragmentSpread, s⟩ :: s.parts) d := by
  have hs := severed_of_read hn h
  have hparts : Encloses .fragmentSpread read FragmentSpread.parts c := by
    simp only [Encloses, read, always_located, always_bind, always_at?, always_ite, always_relabel,
      always_pure]
    intro _ c₁ heat
    refine ⟨fun _ => always_fail, fun _ name c₂ hname directives c₃ hdirectives => ?_⟩
    have hname := (Forward.reaches _ _ _ heat).append (name.covers_read _ _ hname)
    exact ⟨rfl, hname.append (Directive.covers_readAll _ _ _ hdirectives)⟩
  obtain ⟨hspan, hparts⟩ := hparts s d h
  exact hparts.cons ⟨hspan, hs⟩

theorem InlineFragment.passes_of_read {f : InlineFragment} {c d : Cursor}
    (hn : c.next? = some (.punctuator .ellipsis)) (h : InlineFragment.read c = .ok (f, d))
    (hitems : ∀ a ∈ f.selections.items, Covers Selection.read a a.nodes) :
    c.Passes (⟨.inlineFragment, f⟩ :: f.parts) d := by
  have hs := severed_of_read hn h
  obtain ⟨g, hg, rfl⟩ := located_eq_ok.mp h
  obtain ⟨_, c₁, heat, hg⟩ := bind_eq_ok.mp hg
  obtain ⟨condition, c₂, hcondition, hg⟩ := bind_eq_ok.mp hg
  obtain ⟨directives, c₃, hdirectives, hg⟩ := bind_eq_ok.mp hg
  obtain ⟨selections, c₄, hselections, ⟨⟩⟩ := bind_eq_ok.mp hg
  have hcondition := covers_behind (fun n _ => TypeName.covers_read n) _ _ hcondition
  have hparts := (((Forward.reaches _ _ _ heat).append hcondition).append
    (Directive.covers_readAll _ _ _ hdirectives)).append
    (SelectionSet.covers_readBody hitems _ _ hselections)
  exact hparts.cons ⟨rfl, hs⟩

theorem Selection.covers_read (s : Selection) : Covers Selection.read s s.nodes := by
  induction s using Selection.induction with
  | field f ih =>
    intro c d h
    rw [nodes_field]
    exact Field.covers_read ih c d (always_read c _ d h)
  | spread s =>
    intro c d h
    obtain ⟨hn, hs⟩ := always_read c _ d h
    rw [nodes_spread]
    exact FragmentSpread.passes_of_read hn hs
  | «inline» f ih =>
    intro c d h
    obtain ⟨hn, hf⟩ := always_read c _ d h
    rw [nodes_inline]
    exact InlineFragment.passes_of_read hn hf ih

theorem VariableDefinition.encloses_read (c : Cursor) :
    Encloses .variableDefinition read (fun d => d.var.nodes ++ d.type.nodes ++
      d.default.toList.flatMap Value.nodes ++ d.directives.flatMap Directive.nodes) c := by
  simp only [Encloses, read, always_located, always_bind, always_pure]
  intro var c₁ hvar _ c₂ hcolon type c₃ htype default c₄ hdefault directives c₅ hdirectives
  have hvar := (var.covers_read _ _ hvar).reach (Forward.reaches _ _ _ hcolon)
  have hdefault := (hvar.append (type.covers_read _ _ htype)).append
    (Value.covers_readDefault _ _ _ hdefault)
  exact ⟨rfl, hdefault.append (Directive.covers_readAll _ _ _ hdirectives)⟩

theorem VariableDefinition.covers_readAll (ds : List VariableDefinition) :
    Covers readAll ds (ds.flatMap nodes) :=
  covers_enclosed fun _ _ => Encloses.covers encloses_read severable_read

namespace OperationDefinition

theorem covers_readName (o : Option TypeName) :
    Covers readName? o (o.toList.flatMap TypeName.nodes) := by
  intro c d h
  refine (?_ : Always readName? c fun o d => c.Passes (o.toList.flatMap TypeName.nodes) d) o d h
  rw [readName?, always_bind, always_peek]
  split
  · rw [always_map]
    intro n d h
    simpa using n.covers_read c d h
  · exact always_pure.mpr (Cursor.Reaches.refl c).passes

theorem encloses_read (c : Cursor) :
    Encloses .operationDefinition read OperationDefinition.parts c := by
  have hselections : ∀ s : SelectionSet, ∀ a ∈ s.items, Covers Selection.read a a.nodes :=
    fun _ a _ => a.covers_read
  simp only [Encloses, read, readShorthand, readLong, always_bind, always_at?, always_ite,
    always_located, always_relabel, always_pure]
  constructor
  · intro _ s d hs
    exact ⟨rfl, SelectionSet.covers_read (hselections s) _ _ hs⟩
  · intro _ kind c₁ hkind name c₂ hname vars c₃ hvars directives c₄ hdirectives s d hs
    have hname := (Forward.reaches _ _ _ hkind).append (covers_readName _ _ _ hname)
    have hdirectives := (hname.append (VariableDefinition.covers_readAll _ _ _ hvars)).append
      (Directive.covers_readAll _ _ _ hdirectives)
    exact ⟨rfl, hdirectives.append (SelectionSet.covers_readBody (hselections s) _ _ hs)⟩

end OperationDefinition

theorem FragmentDefinition.encloses_read (c : Cursor) :
    Encloses .fragmentDefinition read FragmentDefinition.parts c := by
  simp only [Encloses, read, always_located, always_bind, always_at?, always_ite, always_pure]
  intro _ c₁ hkeyword
  refine ⟨fun _ => always_fail, fun _ name c₂ hname _ c₃ hon condition c₄ hcondition directives c₅
    hdirectives s d hs => ?_⟩
  have hname := ((Forward.reaches _ _ _ hkeyword).append (name.covers_read _ _ hname)).reach
    (Forward.reaches _ _ _ hon)
  have hdirectives := (hname.append (condition.covers_read _ _ hcondition)).append
    (Directive.covers_readAll _ _ _ hdirectives)
  have hselections := SelectionSet.covers_readBody (fun a _ => a.covers_read) _ _ hs
  exact ⟨rfl, hdirectives.append hselections⟩

theorem StringValue.covers_readDescription (o : Option StringValue) :
    Covers readDescription? o (o.toList.flatMap StringValue.nodes) := by
  intro c d h
  refine (?_ : Always readDescription? c fun o d =>
    c.Passes (o.toList.flatMap StringValue.nodes) d) o d h
  rw [readDescription?, always_bind, always_peek]
  have hread : Always (some <$> StringValue.read) c fun o d =>
      c.Passes (o.toList.flatMap StringValue.nodes) d := by
    rw [always_map]
    intro s d h
    simpa using s.covers_read c d h
  split
  · exact hread
  · exact hread
  · exact always_pure.mpr (Cursor.Reaches.refl c).passes

theorem InputValueDefinition.encloses_read (c : Cursor) :
    Encloses .inputValueDefinition read (fun d => d.description.toList.flatMap StringValue.nodes ++
      d.type.nodes ++ d.default.toList.flatMap Value.nodes ++
        d.directives.flatMap Directive.nodes) c := by
  simp only [Encloses, read, always_located, always_bind, always_pure]
  intro description c₁ hdescription name c₂ hname _ c₃ hcolon type c₄ htype default c₅ hdefault
    directives c₆ hdirectives
  have hname := (StringValue.covers_readDescription _ _ _ hdescription).reach
    ((Forward.reaches _ _ _ hname).trans (Forward.reaches _ _ _ hcolon))
  have hdefault := (hname.append (type.covers_read _ _ htype)).append
    (Value.covers_readDefault _ _ _ hdefault)
  exact ⟨rfl, hdefault.append (Directive.covers_readAll _ _ _ hdirectives)⟩

theorem InputValueDefinition.covers_read (d : InputValueDefinition) : Covers read d d.nodes :=
  Encloses.covers encloses_read severable_read

theorem FieldDefinition.encloses_read (c : Cursor) :
    Encloses .fieldDefinition (read true) (fun d =>
      d.description.toList.flatMap StringValue.nodes ++
        d.arguments.flatMap InputValueDefinition.nodes ++ d.type.nodes ++
          d.directives.flatMap Directive.nodes) c := by
  simp only [Encloses, read, always_located, always_bind, always_pure]
  intro description c₁ hdescription name c₂ hname arguments c₃ harguments _ c₄ hcolon type c₅ htype
    directives c₆ hdirectives
  have hname := (StringValue.covers_readDescription _ _ _ hdescription).reach
    (Forward.reaches _ _ _ hname)
  have harguments := covers_enclosed (fun a _ => InputValueDefinition.covers_read a) _ _ harguments
  have htype := ((hname.append harguments).reach (Forward.reaches _ _ _ hcolon)).append
    (type.covers_read _ _ htype)
  exact ⟨rfl, htype.append (Directive.covers_readAll _ _ _ hdirectives)⟩

theorem FieldDefinition.covers_readAll (ds : List FieldDefinition) :
    Covers (readAll true) ds (ds.flatMap nodes) :=
  covers_enclosed fun _ _ => Encloses.covers encloses_read severable_read

theorem EnumValueDefinition.encloses_read (c : Cursor) :
    Encloses .enumValueDefinition (read true) (fun d =>
      d.description.toList.flatMap StringValue.nodes ++ d.directives.flatMap Directive.nodes)
      c := by
  simp only [Encloses, read, always_located, always_bind, always_pure]
  intro description c₁ hdescription name c₂ hname directives c₃ hdirectives
  have hname := (StringValue.covers_readDescription _ _ _ hdescription).reach
    (Forward.reaches _ _ _ hname)
  exact ⟨rfl, hname.append (Directive.covers_readAll _ _ _ hdirectives)⟩

theorem EnumValueDefinition.covers_readAll (ds : List EnumValueDefinition) :
    Covers (readAll true) ds (ds.flatMap nodes) :=
  covers_enclosed fun _ _ => Encloses.covers encloses_read severable_read

theorem TypeName.covers_readListBehind {introducer : Token} {separator : Punctuator}
    (ns : List TypeName) :
    Covers (readListBehind introducer separator) ns (ns.flatMap TypeName.nodes) := by
  intro c d hr
  obtain ⟨found, c₁, heat, hr⟩ := bind_eq_ok.mp hr
  have hc := Forward.reaches c found c₁ heat
  split at hr
  · exact hc.append (covers_separated (fun n _ => TypeName.covers_read n) c₁ d hr)
  · obtain ⟨⟩ := hr
    exact hc.passes

theorem TypeContent.passes_readWithDirectives (kind : TypeKind) (c : Cursor) :
    Always (readWithDirectives kind) c fun p d =>
      c.Passes (p.2.headNodes ++ p.1.flatMap Directive.nodes ++ p.2.tailNodes) d := by
  have hdirectives : ∀ c ds d, Directive.readAll true c = .ok (ds, d) →
      c.Passes (ds.flatMap Directive.nodes) d :=
    fun c ds d h => Directive.covers_readAll ds c d h
  cases kind with
  | scalar =>
    simp only [readWithDirectives, always_bind, always_pure]
    intro ds d hds
    simpa [headNodes, tailNodes] using hdirectives _ _ _ hds
  | object | interface =>
    simp only [readWithDirectives, always_bind, always_pure]
    intro interfaces c₁ hinterfaces ds c₂ hds fields d hfields
    exact ((TypeName.covers_readListBehind _ _ _ hinterfaces).append (hdirectives _ _ _ hds)).append
      (FieldDefinition.covers_readAll _ _ _ hfields)
  | union =>
    simp only [readWithDirectives, always_bind, always_pure]
    intro ds c₁ hds members d hmembers
    exact (hdirectives _ _ _ hds).append (TypeName.covers_readListBehind _ _ _ hmembers)
  | enum =>
    simp only [readWithDirectives, always_bind, always_pure]
    intro ds c₁ hds values d hvalues
    exact (hdirectives _ _ _ hds).append (EnumValueDefinition.covers_readAll _ _ _ hvalues)
  | inputObject =>
    simp only [readWithDirectives, always_bind, always_pure]
    intro ds c₁ hds fields d hfields
    have hfields := covers_enclosed (fun a _ => InputValueDefinition.covers_read a) _ _ hfields
    exact (hdirectives _ _ _ hds).append hfields

section Bodies

variable {description : Option StringValue} {b c : Cursor}

theorem TypeDefinition.passes_readBody {kind : TypeKind}
    (hb : b.Passes (description.toList.flatMap StringValue.nodes) c) :
    Always (readBody kind description) c fun f d =>
      ∀ span, (f span).span = span ∧ b.Passes (f span).parts d := by
  simp only [readBody, always_bind, always_pure]
  intro name c₁ hname p d hp span
  have hcontent := TypeContent.passes_readWithDirectives kind c₁ p d hp
  exact ⟨trivial, (hb.append (name.covers_read _ _ hname)).append hcontent⟩

theorem RootOperationType.encloses_read (c : Cursor) :
    Encloses .rootOperationType read (fun n => n.type.nodes) c := by
  simp only [Encloses, read, always_located, always_bind, always_pure]
  intro kind c₁ hkind _ c₂ hcolon type d htype
  have hc := (Forward.reaches _ _ _ hkind).trans (Forward.reaches _ _ _ hcolon)
  exact ⟨rfl, hc.append (type.covers_read _ _ htype)⟩

theorem RootOperationType.covers_readAll (ns : List RootOperationType) :
    Covers readAll ns (ns.flatMap nodes) :=
  covers_enclosed fun _ _ => Encloses.covers encloses_read severable_read

theorem SchemaDefinition.passes_readParts
    (hb : b.Passes (description.toList.flatMap StringValue.nodes) c) :
    Always (readParts description) c fun f d =>
      ∀ span, (f span).span = span ∧ b.Passes (f span).parts d := by
  simp only [readParts, always_bind, always_pure]
  intro directives c₁ hdirectives types d htypes span
  have hdirectives := hb.append (Directive.covers_readAll _ _ _ hdirectives)
  exact ⟨trivial, hdirectives.append (RootOperationType.covers_readAll _ _ _ htypes)⟩

theorem SchemaDefinition.passes_readBody
    (hb : b.Passes (description.toList.flatMap StringValue.nodes) c) :
    Always (readBody description) c fun f d =>
      ∀ span, (f span).span = span ∧ b.Passes (f span).parts d := by
  rw [readBody, always_bind]
  refine (passes_readParts hb).mono fun f d hf => ?_
  rw [always_ite, always_pure]
  exact ⟨fun _ => always_fail, fun _ => hf⟩

theorem DirectiveDefinition.passes_readBody
    (hb : b.Passes (description.toList.flatMap StringValue.nodes) c) :
    Always (readBody description) c fun f d =>
      ∀ span, (f span).span = span ∧ b.Passes (f span).parts d := by
  simp only [readBody, always_bind, always_pure]
  intro _ c₁ hat name c₂ hname arguments c₃ harguments repeatable c₄ hrepeatable _ c₅ hon locations d
    hlocations span
  have hname := hb.reach ((Forward.reaches _ _ _ hat).trans (Forward.reaches _ _ _ hname))
  have harguments := covers_enclosed (fun a _ => InputValueDefinition.covers_read a) _ _ harguments
  have hc := ((Forward.reaches _ _ _ hrepeatable).trans (Forward.reaches _ _ _ hon)).trans
    (Forward.reaches _ _ _ hlocations)
  exact ⟨trivial, (hname.append harguments).reach hc⟩

end Bodies

namespace Definition

theorem encloses_readTypeSystem (c : Cursor) :
    Encloses .definition readTypeSystem Definition.parts c := by
  rw [Encloses, readTypeSystem, always_located, always_bind]
  intro description c₁ hdescription
  rw [always_bind]
  intro part c₂ hpart
  have hb := (StringValue.covers_readDescription _ _ _ hdescription).reach
    (Forward.reaches _ _ _ hpart)
  cases part with
  | schema =>
    rw [always_bind]
    refine (SchemaDefinition.passes_readBody hb).mono fun f d hf => ?_
    exact always_pure.mpr ⟨congrArg some (hf _).1, (hf _).2⟩
  | directive =>
    rw [always_bind]
    refine (DirectiveDefinition.passes_readBody hb).mono fun f d hf => ?_
    exact always_pure.mpr ⟨congrArg some (hf _).1, (hf _).2⟩
  | type kind =>
    rw [always_bind]
    refine (TypeDefinition.passes_readBody hb).mono fun f d hf => ?_
    exact always_pure.mpr ⟨congrArg some (hf _).1, (hf _).2⟩

theorem encloses_readExtension (c : Cursor) :
    Encloses .definition readExtension Definition.parts c := by
  rw [Encloses, readExtension, always_located, always_bind]
  intro _ c₁ hkeyword
  rw [always_bind]
  intro kind c₂ hkind
  have hb : c.Passes ((none : Option StringValue).toList.flatMap StringValue.nodes) c₂ :=
    ((Forward.reaches _ _ _ hkeyword).trans (Forward.reaches _ _ _ hkind)).passes
  cases kind with
  | none =>
    rw [always_bind]
    refine (SchemaDefinition.passes_readParts hb).mono fun f d hf => ?_
    rw [always_ite, always_pure]
    exact ⟨fun _ => always_fail, fun _ => ⟨congrArg some (hf _).1, (hf _).2⟩⟩
  | some kind =>
    rw [always_bind]
    refine (TypeDefinition.passes_readBody hb).mono fun f d hf => ?_
    rw [always_ite, always_pure]
    exact ⟨fun _ => always_fail, fun _ => ⟨congrArg some (hf _).1, (hf _).2⟩⟩

theorem encloses_read (c : Cursor) : Encloses .definition read Definition.parts c := by
  have hoperation : Always (operation <$> OperationDefinition.read) c fun n d =>
      Production.span? .definition n = some ⟨c.nextSpan.start, max d.lastEnd c.nextSpan.start⟩ ∧
        c.Passes n.parts d :=
    always_map.mpr (OperationDefinition.encloses_read c)
  rw [Encloses, read, always_bind, always_peek]
  split
  · exact hoperation
  · exact encloses_readTypeSystem c
  · exact encloses_readTypeSystem c
  · exact always_map.mpr (FragmentDefinition.encloses_read c)
  · exact encloses_readExtension c
  · simp only [always_ite]
    exact ⟨fun _ => hoperation, fun _ => ⟨fun _ => encloses_readTypeSystem c,
      fun _ => always_fail⟩⟩
  · exact always_fail

theorem covers_read (d : Definition) : Covers read d d.nodes :=
  Encloses.covers encloses_read severable_read

end Definition

namespace Document

/-- All nodes of a document are read on the way through its source. -/
theorem covers_read (n : Document) : Covers read n n.nodes := by
  refine Encloses.covers (fun c n d h => ?_) severable_read
  obtain ⟨hdefinitions, hspan⟩ := eq_of_read h
  exact ⟨congrArg some hspan, covers_whileMore (fun a _ => a.covers_read) _ _ hdefinitions⟩

end Document

end GraphQLText
