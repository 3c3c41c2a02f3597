import GraphQLText.Proofs.Snippets.Rows
import GraphQLText.Proofs.Text.Feeds

/-!
# The layout of snippets

A snippet has the lines of its source from the one before the span through the span's last one, each
behind its number, and the carets of a span on one line stand right below it. Cutting the lines out by
positions never fails and gives the same rows.
-/

namespace GraphQLText

set_option autoImplicit false

namespace Snippet

theorem isFirm_trimReturns (line : List Char) : IsFirm (trimReturns line) := by
  rintro c hc rfl
  rw [trimReturns, List.getLast?_reverse] at hc
  have hstop := List.head?_dropWhile_not (· == '\r') line.reverse
  rw [Option.mem_def.mp hc] at hstop
  simp at hstop

theorem getElem?_numbered (width number : Nat) (ls : List (List Char)) (i : Nat) :
    (numbered width number ls)[i]? =
      ls[i]?.map fun line => gutter width (number + i) ++ trimReturns line := by
  induction ls generalizing number i with
  | nil => rfl
  | cons line ls ih =>
    cases i with
    | zero => rfl
    | succ i =>
      rw [numbered, List.getElem?_cons_succ, List.getElem?_cons_succ, ih, Nat.add_assoc,
        Nat.add_comm 1 i]

theorem length_numbered (width number : Nat) (ls : List (List Char)) :
    (numbered width number ls).length = ls.length := by
  induction ls generalizing number with
  | nil => rfl
  | cons line ls ih => rw [numbered, List.length_cons, ih, List.length_cons]

theorem length_shown (before marked after : List Char) :
    max 1 (before.count '\n') +
        (Text.linesBetween (before ++ (marked ++ after)) (max 1 (before.count '\n'))
          ((before ++ marked).count '\n' + 1)).length =
      (before ++ marked).count '\n' + 1 + 1 := by
  rw [Text.linesBetween, List.length_take, List.length_drop, Text.length_lines]
  simp only [List.count_append]
  omega

theorem length_toString_le {n m : Nat} (h : n ≤ m) : (toString n).length ≤ (toString m).length := by
  have hpos : 0 < (toString m).length := Nat.length_repr_pos
  have hless := (Nat.length_repr_le_iff hpos).mp (Nat.le_refl (toString m).length)
  exact (Nat.length_repr_le_iff hpos).mpr (Nat.lt_of_le_of_lt h hless)

end Snippet

namespace Excerpt

open Snippet (numbered)

theorem less?_of_le {n m : Nat} (h : m ≤ n) : less? n m = some (n - m) := if_pos h

theorem numbered?_eq {bottom number : Nat} {ls : List (List Char)}
    (h : number + ls.length ≤ bottom + 1) :
    numbered? (toString bottom).length number ls =
      some (numbered (toString bottom).length number ls) := by
  induction ls generalizing number with
  | nil => rfl
  | cons line ls ih =>
    rw [List.length_cons] at h
    -- the last number is the widest, so that the others fit
    have hwidth : (toString number).toList.length ≤ (toString bottom).length := by
      rw [String.length_toList]
      exact Snippet.length_toString_le (by omega)
    rw [numbered?, less?_of_le hwidth, ih (by omega)]
    rfl

/-- Before the line feed that the last line of a text comes after stand whole lines, and then the line
before the last one. -/
theorem exists_top (before rest : List Char) :
    ∃ above mid first behind, before = above ++ mid ∧ Text.IsWholeLines above ∧
      above.count '\n' = before.count '\n' - 1 ∧
      Text.cut? (Text.lastStart before - 1) (before ++ rest) = some (first, behind) ∧
      Text.lastStart first = Text.byteLength above := by
  have hlast := Text.count_lastLine before
  obtain ⟨up, hbefore, hstart, rfl | ⟨first, rfl⟩⟩ := Text.exists_lastStart before
  · refine ⟨[], before, [], before ++ rest, rfl, .inl rfl, ?_, ?_, rfl⟩
    · rw [hbefore, List.nil_append, hlast]
      rfl
    · rw [hstart]
      exact Text.cut?_byteLength_append [] _
  · -- the line before the last one is the last one of `first`
    obtain ⟨above, hfirst, habove, hwhole⟩ := Text.exists_lastStart first
    have hsource : before ++ rest = first ++ '\n' :: (Text.lastLine before ++ rest) := by
      simpa using congrArg (· ++ rest) hbefore
    have hcount := congrArg (List.count '\n') hfirst
    rw [List.count_append, Text.count_lastLine, Nat.add_zero] at hcount
    have hbreak : Text.lastStart before - 1 = Text.byteLength first := by
      rw [hstart, Text.byteLength_append]
      rfl
    refine ⟨above, Text.lastLine first ++ '\n' :: Text.lastLine before, first,
      '\n' :: (Text.lastLine before ++ rest), ?_, hwhole, ?_, ?_, habove⟩
    · rw [← List.append_assoc, ← hfirst]
      simpa using hbefore
    · rw [hbefore, List.count_append, List.count_append, hlast, List.count_singleton_self, hcount]
      rfl
    · rw [hbreak, hsource, Text.cut?_byteLength_append]

/-- The piece of a source that is cut out for a span holds the lines of its snippet. -/
theorem exists_shown (before marked after : List Char) :
    ∃ first behind shown,
      Text.cut? (Text.lastStart before - 1) (before ++ (marked ++ after)) = some (first, behind) ∧
      Text.piece? ⟨Text.lastStart first, Text.lineStop (Text.byteLength (before ++ marked)) after
        (before ++ (marked ++ after))⟩ (before ++ (marked ++ after)) = some shown ∧
      Text.lines shown = Text.linesBetween (before ++ (marked ++ after)) (max 1 (before.count '\n'))
        ((before ++ marked).count '\n' + 1) := by
  obtain ⟨line, below, rfl, hline, hstop, down, hbelow⟩ :=
    Text.exists_lineStop (before ++ marked) after
  obtain ⟨above, mid, first, behind, rfl, hwhole, hcount, hcut, hstart⟩ :=
    exists_top before (marked ++ (line ++ below))
  have hsource : above ++ mid ++ (marked ++ (line ++ below)) =
      above ++ (mid ++ (marked ++ line) ++ below) := by
    simp only [List.append_assoc]
  refine ⟨first, behind, mid ++ (marked ++ line), hcut, ?_, ?_⟩
  · have hfront : above ++ mid ++ marked ++ line = above ++ (mid ++ (marked ++ line)) := by
      simp only [List.append_assoc]
    rw [← List.append_assoc (above ++ mid), hstart, hstop, hfront, List.append_assoc _ marked, hsource]
    exact Text.piece?_append ..
  · have hshown := Text.take_drop_lines hwhole (hbelow (mid ++ (marked ++ line)))
    rw [List.count_append] at hcount
    -- counted from one, the first line shown comes behind those above
    have htop : max 1 ((above ++ mid).count '\n') - 1 = above.count '\n' := by
      rw [List.count_append]
      omega
    have hlength : (above ++ mid ++ marked).count '\n' + 1 + 1 - max 1 ((above ++ mid).count '\n') =
        (mid ++ (marked ++ line)).count '\n' + 1 := by
      simp only [List.count_append, List.count_eq_zero.mpr hline]
      omega
    rw [Text.linesBetween, htop, hlength, hsource, hshown]

theorem at?_eq (before rest : List Char) :
    Location.at? (before ++ rest) (Text.byteLength before) =
      some ⟨Text.byteLength before, before.count '\n' + 1, (Text.lastLine before).length + 1⟩ := by
  obtain ⟨above, hbefore, hstart, -⟩ := Text.exists_lastStart before
  have hline := Text.cut?_byteLength_append above (Text.lastLine before)
  rw [← hbefore, ← hstart] at hline
  simp only [Location.at?, Text.cut?_byteLength_append, hline, Option.bind_eq_bind, Option.bind_some,
    Option.pure_def]

theorem topLine?_eq (before : List Char) :
    topLine? (Text.lastStart before) (before.count '\n' + 1) = some (max 1 (before.count '\n')) := by
  rw [topLine?]
  split
  · next hstart => rw [Text.lastStart_eq_zero_iff.mp hstart, Nat.max_eq_left (Nat.zero_le 1)]
  · next hstart =>
    have hpos := Nat.pos_of_ne_zero fun hcount => hstart (Text.lastStart_eq_zero_iff.mpr hcount)
    rw [less?_of_le (Nat.le_add_left ..), Nat.add_sub_cancel, Nat.max_eq_right hpos]

/-- Cutting the lines out by positions gives the rows of the snippet. -/
theorem rows?_eq (before marked after : List Char) :
    rows? (before ++ (marked ++ after))
        ⟨Text.byteLength before, Text.byteLength (before ++ marked)⟩ =
      some (Snippet.rows (before ++ (marked ++ after))
        ⟨Text.byteLength before, Text.byteLength (before ++ marked)⟩) := by
  obtain ⟨first, behind, shown, hcut, hshown, hlines⟩ := exists_shown before marked after
  have hbefore := Text.cut?_byteLength_append before (marked ++ after)
  have hstop := Text.cut?_byteLength_append (before ++ marked) after
  rw [List.append_assoc] at hstop
  have hmarked := Text.piece?_append before marked after
  have hlocation := at?_eq before (marked ++ after)
  have hlength := Snippet.length_shown before marked after
  rw [← hlines] at hlength
  have hbottom : less? (max 1 (before.count '\n') + (Text.lines shown).length) 1 =
      some ((before ++ marked).count '\n' + 1) := by
    rw [less?_of_le (by omega), hlength, Nat.add_sub_cancel]
  have hnumbered := numbered?_eq (Nat.le_of_eq hlength)
  have hblanks := less?_of_le (Nat.le_add_left 1 (Text.lastLine before).length)
  rw [Snippet.rows_eq, ← hlines]
  simp only [rows?, hlocation, hbefore, hcut, topLine?_eq, hstop, hshown, hbottom, hnumbered, hmarked,
    hblanks, Option.bind_eq_bind, Option.bind_some, Option.pure_def]
  by_cases hmem : '\n' ∈ marked
  · rw [if_pos hmem, if_pos hmem, List.append_nil]
  · rw [if_neg hmem, if_neg hmem]
    rfl

end Excerpt

namespace Snippet

/-- The rows are the lines of the source with the numbers from `top` through `bottom`, without the
carriage returns at their ends. Each stands behind its number, set to the right in a column that is one
wider than the last number. -/
structure Shows (source : List Char) (top bottom : Nat) (rows : List (List Char)) : Prop where
  length : top + rows.length = bottom + 1
  row : ∀ n, top ≤ n → n ≤ bottom → ∃ line returns pad,
    (Text.lines source)[n - 1]? = some (line ++ returns) ∧ (∀ c ∈ returns, c = '\r') ∧ IsFirm line ∧
    pad + (toString n).length = (toString bottom).length + 1 ∧
    rows[n - top]? = some (List.replicate pad ' ' ++ (toString n).toList ++ " | ".toList ++ line)

theorem shows_numbered {source : List Char} {top bottom : Nat} (htop : 1 ≤ top)
    (hlength : top + (Text.linesBetween source top bottom).length = bottom + 1) :
    Shows source top bottom
      (numbered (toString bottom).length top (Text.linesBetween source top bottom)) where
  length := by rw [length_numbered, hlength]
  row := by
    intro n hn hbottom
    have hmem : n - top < (Text.linesBetween source top bottom).length := by omega
    have hwhole := List.getElem?_eq_getElem hmem
    generalize (Text.linesBetween source top bottom)[n - top] = whole at hwhole
    obtain ⟨returns, heq, hreturns⟩ := exists_returns whole
    have hwidth := length_toString_le hbottom
    refine ⟨trimReturns whole, returns, (toString bottom).length - (toString n).length + 1, ?_,
      hreturns, isFirm_trimReturns whole, by omega, ?_⟩
    · have hindex : top - 1 + (n - top) = n - 1 := by omega
      rw [Text.linesBetween, List.getElem?_take_of_lt (by omega), List.getElem?_drop, hindex] at hwhole
      rw [hwhole, ← heq]
    · have hnumber : top + (n - top) = n := by omega
      rw [getElem?_numbered, hwhole, hnumber]
      rfl

/-- A snippet shows the lines of its source from the one before the span, if there is one, through the
last one of the span. If the span has no line feed, a row follows with a caret below each of its
characters, or with one caret if it has none, and the first caret stands as far behind the gutter as the
span does in its line. Cutting the lines out by positions gives the same text. -/
theorem render_layout (before marked after : List Char) :
    Excerpt.render? (before ++ (marked ++ after))
        ⟨Text.byteLength before, Text.byteLength (before ++ marked)⟩ =
      some (render (before ++ (marked ++ after))
        ⟨Text.byteLength before, Text.byteLength (before ++ marked)⟩) ∧
    (∃ rows, Shows (before ++ (marked ++ after)) (max 1 (before.count '\n'))
        ((before ++ marked).count '\n' + 1) rows ∧
      Text.lines (render (before ++ (marked ++ after))
          ⟨Text.byteLength before, Text.byteLength (before ++ marked)⟩).toList =
        rows ++ if '\n' ∈ marked then []
          else [List.replicate ((toString ((before ++ marked).count '\n' + 1)).length + 1) ' ' ++
            " | ".toList ++ List.replicate (Text.lastLine before).length ' ' ++
              List.replicate (max 1 marked.length) '^']) ∧
    (Text.lines (before ++ (marked ++ after)))[before.count '\n']? =
      (Text.lines (marked ++ after)).head?.map (Text.lastLine before ++ ·) := by
  have hlength := length_shown before marked after
  have hshows := shows_numbered (Nat.le_max_left ..) hlength
  have hrows := rows_eq before marked after
  refine ⟨?_, ⟨_, hshows, ?_⟩, ?_⟩
  · rw [Excerpt.render?, Excerpt.rows?_eq]
    rfl
  · have hne : rows (before ++ (marked ++ after))
        ⟨Text.byteLength before, Text.byteLength (before ++ marked)⟩ ≠ [] := by
      rw [hrows]
      intro hnil
      have hempty := congrArg List.length (List.append_eq_nil_iff.mp hnil).1
      rw [length_numbered, List.length_nil] at hempty
      have hle := (List.sublist_append_left before marked).count_le '\n'
      omega
    rw [render, String.toList_ofList, Text.lines_unlines hne (newline_not_mem_rows _ _), hrows]
    rfl
  · obtain ⟨up, hup, hlines⟩ := Text.exists_lines_append before (marked ++ after)
    obtain ⟨line, down, hfirst⟩ := List.exists_cons_of_ne_nil (Text.lines_ne_nil (marked ++ after))
    rw [Text.lines_append_of_not_mem (Text.newline_not_mem_lastLine before) hfirst] at hlines
    rw [hlines, hfirst, ← hup]
    simp

example : render "\n\n\n\n\n\n\n\nab\r\ncé".toList ⟨13, 15⟩ = "  9 | ab\n 10 | cé\n    |  ^" := by
  decide +kernel

end Snippet

end GraphQLText
