import GraphQLText.Proofs.Lexing.Broken
import GraphQLText.Proofs.Locality.Settled
import GraphQLText.Proofs.Spans.Built

/-!
# Spans are nested and ordered

The span of a node lies in the source and around the spans of all the nodes within it. The spans of its
children lie apart, in the order of the grammar.
-/

namespace GraphQLText

set_option autoImplicit false

theorem TokenStream.start_lt_stop {source : String} {t : PlacedToken}
    (ht : t ∈ (ofText source).tokens) : t.span.start < t.span.stop := by
  obtain ⟨us, vs, htokens⟩ := List.append_of_mem ht
  obtain ⟨blank, text, rest, -, -, hspells, -, hspan⟩ := exists_of_tokens_eq_append htokens
  have hpos := Text.byteLength_pos (ne_nil_of_spells hspells)
  rw [hspan, Text.byteLength_append]
  simp only
  omega

namespace Cursor

variable {source : String} {c d : Cursor}

theorem Reaches.eq_or_lt (h : c.Reaches d) : d = c ∨ d.tokens.length < c.tokens.length := by
  obtain ⟨ws, ht⟩ := h
  cases ws with
  | nil => exact .inl ht
  | cons w ws => exact .inr (ht.length_lt (List.cons_ne_nil w ws))

/-- What has been read ends behind where it began. -/
theorem start_lt_lastEnd (hc : (atStart (TokenStream.ofText source)).Reaches c) (hd : c.Reaches d)
    (hlt : d.tokens.length < c.tokens.length) : c.nextSpan.start < d.lastEnd := by
  obtain ⟨us, hu⟩ := hc
  obtain ⟨ws, hw⟩ := hd
  obtain ⟨before, hbefore, -, -, -⟩ := hu.exists_tokens
  obtain ⟨mid, hmid, -, -, hlast⟩ := hw.exists_tokens
  cases mid with
  | nil =>
    rw [hmid] at hlt
    exact absurd hlt (Nat.lt_irrefl _)
  | cons t more =>
    have hnext : c.nextSpan = t.span := by rw [nextSpan, hmid]; rfl
    obtain ⟨last, hgetLast⟩ : ∃ last, (t :: more).getLast? = some last :=
      ⟨_, List.getLast?_eq_some_getLast (List.cons_ne_nil t more)⟩
    have htokens : (TokenStream.ofText source).tokens = before ++ (t :: more ++ d.tokens) :=
      hmid ▸ hbefore
    have hmem : last ∈ t :: more := List.mem_of_getLast? hgetLast
    have hsource : last ∈ (TokenStream.ofText source).tokens := by
      rw [htokens]
      exact List.mem_append_right _ (List.mem_append_left _ hmem)
    have hstop := TokenStream.start_lt_stop hsource
    -- the last token read is the first one or stands behind it
    have hfirst : t.span.start ≤ last.span.start := by
      have hpairs := (TokenStream.pairwise_spans 0 source.toList).2
      rw [TokenStream.spans, ← TokenStream.ofText, htokens, List.map_append, List.append_assoc,
        List.cons_append, List.map_cons, List.map_append, List.cons_append] at hpairs
      rcases List.mem_cons.mp hmem with rfl | hlater
      · exact Nat.le_refl _
      · have hrest := (List.pairwise_cons.mp (List.pairwise_append.mp hpairs).2.1).1 last.span
          (by simp [List.mem_map_of_mem hlater])
        exact Nat.le_of_lt hrest.1
    rw [hnext, hlast, hgetLast]
    exact Nat.lt_of_le_of_lt hfirst hstop

theorem lastEnd_le_lastEnd (hc : (atStart (TokenStream.ofText source)).Reaches c)
    (hd : c.Reaches d) : c.lastEnd ≤ d.lastEnd := by
  rcases hd.eq_or_lt with rfl | hlt
  · exact Nat.le_refl _
  · exact Nat.le_trans hc.lastEnd_le (Nat.le_of_lt (start_lt_lastEnd hc hd hlt))

theorem start_le_start (hc : (atStart (TokenStream.ofText source)).Reaches c) (hd : c.Reaches d) :
    c.nextSpan.start ≤ d.nextSpan.start := by
  rcases hd.eq_or_lt with rfl | hlt
  · exact Nat.le_refl _
  · exact Nat.le_trans (Nat.le_of_lt (start_lt_lastEnd hc hd hlt)) (hc.trans hd).lastEnd_le

theorem lastEnd_le_size (hc : (atStart (TokenStream.ofText source)).Reaches c)
    (hdone : c.isComplete = true) : c.lastEnd ≤ source.utf8ByteSize := by
  have hle := hc.lastEnd_le
  obtain ⟨us, hu⟩ := hc
  obtain ⟨-, -, -, hending, -⟩ := hu.exists_tokens
  have hstream := TokenStream.ending_ofChars 0 source.toList
  obtain ⟨tokens, ending, lastEnd⟩ := c
  cases tokens with
  | cons t tokens => simp [isComplete] at hdone
  | nil =>
    cases ending with
    | broken => simp [isComplete] at hdone
    | complete offset =>
      rw [show (TokenStream.ofChars 0 source.toList).ending = .complete offset from hending.symm]
        at hstream
      rwa [← Text.byteLength_toList, ← Nat.zero_add (Text.byteLength _), ← hstream.1]

end Cursor

/-- The nodes lie one behind the other between the two offsets, each of them around its children. -/
inductive Laid : Nat → List Part → Nat → Prop
  | nil {lo hi : Nat} : Laid lo [] hi
  | absent {lo hi : Nat} {x : Part} {xs : List Part} :
      x.isAbsent = true → Laid lo xs hi → Laid lo (x :: xs) hi
  | node {lo hi : Nat} {span : Span} {x : Part} {xs : List Part} :
      x.span? = some span → lo ≤ span.start → span.start < span.stop → span.stop ≤ hi →
        Laid span.start x.children span.stop → Laid span.stop xs hi → Laid lo (x :: xs) hi

def Part.LiesIn (x : Part) (lo hi : Nat) : Prop :=
  ∃ span, x.span? = some span ∧ lo ≤ span.start ∧ span.start < span.stop ∧ span.stop ≤ hi ∧
    Laid span.start x.children span.stop

namespace Laid

variable {lo lo' hi : Nat} {x y : Part} {xs : List Part}

theorem mono (h : Laid lo xs hi) (hle : lo' ≤ lo) : Laid lo' xs hi := by
  induction h with
  | nil => exact .nil
  | absent hx _ ih => exact .absent hx (ih hle)
  | node hspan hlo hlt hhi hchildren hrest _ _ =>
    exact .node hspan (Nat.le_trans hle hlo) hlt hhi hchildren hrest

theorem of_mem (h : Laid lo xs hi) (hx : x ∈ xs) : x.isAbsent = true ∨ x.LiesIn lo hi := by
  induction h with
  | nil => cases hx
  | absent habsent _ ih =>
    rcases List.mem_cons.mp hx with rfl | hx
    · exact .inl habsent
    · exact ih hx
  | node hspan hlo hlt hhi hchildren _ _ ih =>
    rcases List.mem_cons.mp hx with rfl | hx
    · exact .inr ⟨_, hspan, hlo, hlt, hhi, hchildren⟩
    · refine (ih hx).imp_right ?_
      rintro ⟨span, hspan', hlo', hrest⟩
      exact ⟨span, hspan', by omega, hrest⟩

/-- What lies around the children lies around all that is within them. -/
theorem of_isWithin (h : Laid lo xs hi) (hy : y ∈ xs) (hx : x.IsWithin y) :
    x.isAbsent = true ∨ x.LiesIn lo hi := by
  induction hx generalizing lo xs hi with
  | refl => exact h.of_mem hy
  | child hmem _ ih =>
    rcases h.of_mem hy with habsent | ⟨outer, -, hlo, -, hhi, hchildren⟩
    · rw [Part.children_of_isAbsent habsent] at hmem
      cases hmem
    · refine (ih hchildren hmem).imp_right ?_
      rintro ⟨span, hspan, hlo', hlt, hhi', hrest⟩
      exact ⟨span, hspan, by omega, hlt, by omega, hrest⟩

/-- The nodes that are there have spans, each of them behind the one before it. -/
theorem exists_spans (h : Laid lo xs hi) :
    ∃ spans : List Span, (xs.filter fun y => !y.isAbsent).map Part.span? = spans.map some ∧
      (spans.Pairwise fun s t => s.stop ≤ t.start) ∧ ∀ s ∈ spans, lo ≤ s.start := by
  induction h with
  | nil => exact ⟨[], rfl, .nil, by simp⟩
  | absent habsent _ ih => simpa [habsent] using ih
  | @node lo hi span x xs hspan hlo hlt _ _ _ _ ih =>
    obtain ⟨spans, hspans, hpairs, hfrom⟩ := ih
    cases habsent : x.isAbsent with
    | true =>
      refine ⟨spans, by simpa [habsent] using hspans, hpairs, fun s hs => ?_⟩
      have := hfrom s hs
      omega
    | false =>
      refine ⟨span :: spans, by simp [habsent, hspan, hspans], List.pairwise_cons.mpr ⟨hfrom, hpairs⟩,
        fun s hs => ?_⟩
      rcases List.mem_cons.mp hs with rfl | hs
      · exact hlo
      · have := hfrom s hs
        omega

end Laid

/-- Nodes that were read around their children lie around them. -/
theorem Cursor.Nests.laid {source : String} {c d : Cursor} {xs : List Part}
    (hc : (atStart (TokenStream.ofText source)).Reaches c) (h : c.Nests xs d) :
    Laid c.nextSpan.start xs d.lastEnd := by
  induction h with
  | nil _ => exact .nil
  | absent hx _ ih => exact .absent hx (ih hc)
  | node hcb hspan hlt hchildren hrest ihchildren ihrest =>
    have hb := hc.trans hcb
    have hd := hb.trans hchildren.reaches
    have hpos := start_lt_lastEnd hb hchildren.reaches hlt
    rw [Nat.max_eq_left (Nat.le_of_lt hpos)] at hspan
    exact .node hspan (start_le_start hc hcb) hpos (lastEnd_le_lastEnd hd hrest.reaches)
      (ihchildren hb) ((ihrest hd).mono hd.lastEnd_le)

/-- The span of the node lies in a source of the given size, it lies around the spans of all nodes
within the node, and the spans of the children lie apart in their order. Selection sets that are not
there do not count. -/
structure Part.WellPlaced (x : Part) (size : Nat) : Prop where
  bounded : ∀ span, x.span? = some span → span.start < span.stop ∧ span.stop ≤ size
  around : ∀ span, x.span? = some span → ∀ y : Part, y.IsWithin x →
    y.isAbsent = true ∨
      ∃ inner, y.span? = some inner ∧ span.start ≤ inner.start ∧ inner.stop ≤ span.stop
  apart : ∃ spans : List Span, (x.children.filter fun y => !y.isAbsent).map Part.span? =
      spans.map some ∧ spans.Pairwise fun s t => s.stop ≤ t.start

theorem Part.LiesIn.wellPlaced {x : Part} {lo hi size : Nat} (h : x.LiesIn lo hi)
    (hsize : hi ≤ size) : x.WellPlaced size := by
  obtain ⟨span, hspan, -, hlt, hhi, hchildren⟩ := h
  obtain ⟨spans, hspans, hpairs, -⟩ := hchildren.exists_spans
  constructor
  case bounded =>
    intro span' hspan'
    obtain rfl := Option.some.inj (hspan.symm.trans hspan')
    exact ⟨hlt, Nat.le_trans hhi hsize⟩
  case around =>
    intro span' hspan' y hy
    obtain rfl := Option.some.inj (hspan.symm.trans hspan')
    cases hy with
    | refl => exact .inr ⟨span, hspan, Nat.le_refl _, Nat.le_refl _⟩
    | child hmem hy =>
      refine (hchildren.of_isWithin hmem hy).imp_right ?_
      rintro ⟨inner, hinner, hlo', -, hhi', -⟩
      exact ⟨inner, hinner, hlo', hhi'⟩
  case apart => exact ⟨spans, hspans, hpairs⟩

namespace Production

variable {p : Production} {source : String} {n : p.Node}

/-- Every node within a node that a source is read as is well placed in the source, unless it is a
selection set that is not there. -/
theorem wellPlaced_of_parse (h : p.parse source = .ok n) {x : Part} (hx : x.IsWithin ⟨p, n⟩) :
    x.isAbsent = true ∨ x.WellPlaced source.utf8ByteSize := by
  obtain ⟨m, d, hread, rfl, hd⟩ := Reader.parse_eq_ok_iff.mp h
  have hbuilt := builds_read p _ m d hread
  have hlaid := hbuilt.laid (.refl _)
  have hsize := Cursor.lastEnd_le_size hbuilt.reaches hd
  unfold own at hlaid
  split at hlaid
  · exact (hlaid.of_isWithin (List.mem_singleton_self _) hx).imp_right fun h => h.wellPlaced hsize
  · next hnone =>
    cases hx with
    | refl =>
      obtain ⟨spans, hspans, hpairs, -⟩ := hlaid.exists_spans
      have hno : ∀ span, Part.span? ⟨p, m⟩ ≠ some span := by
        intro span hspan
        cases hnone.symm.trans hspan
      exact .inr ⟨fun span hspan => absurd hspan (hno span),
        fun span hspan => absurd hspan (hno span), spans, hspans, hpairs⟩
    | child hmem hx =>
      exact (hlaid.of_isWithin hmem hx).imp_right fun h => h.wellPlaced hsize

def pairValue : ListValue :=
  ⟨[.variable ⟨"c", ⟨6, 8⟩⟩, .int ⟨"1", ⟨9, 10⟩⟩], ⟨5, 11⟩⟩

def pairField : Field where
  aliasName := none
  name := "a"
  arguments := [⟨"b", .list pairValue, ⟨2, 11⟩⟩]
  directives := [⟨"d", [], ⟨13, 15⟩⟩]
  selections := ⟨[.field ⟨none, "e", [], [], .absent, ⟨17, 18⟩⟩], ⟨16, 19⟩⟩
  span := ⟨0, 19⟩

theorem wellPlaced_of_parse_pairField :
    Production.parse .field "a(b: [$c 1]) @d {e}" = .ok pairField ∧
      Part.IsWithin ⟨.listValue, pairValue⟩ ⟨.field, pairField⟩ ∧
      (Part.isAbsent ⟨.listValue, pairValue⟩ = true ∨
        Part.WellPlaced ⟨.listValue, pairValue⟩ "a(b: [$c 1]) @d {e}".utf8ByteSize) := by
  have hread : Production.parse .field "a(b: [$c 1]) @d {e}" = .ok pairField := by cbv
  have hwithin : Part.IsWithin ⟨.listValue, pairValue⟩ ⟨.field, pairField⟩ :=
    .child (.head _) (.child (.head _) .refl)
  exact ⟨hread, hwithin, wellPlaced_of_parse hread hwithin⟩

end Production

end GraphQLText
