import GraphQLText.Proofs.Text.Lines
import GraphQLText.Text.Snippet

/-!
# The rows of a snippet

Where a span begins is told from the text before it: its line by the line feeds there, and its column
by what stands behind the last of them. A snippet of a span on one line ends with that line and a row
of carets below the span.
-/

namespace GraphQLText

set_option autoImplicit false

theorem Location.ofOffset_byteLength (before rest : List Char) :
    ofOffset (before ++ rest) (Text.byteLength before) =
      ⟨Text.byteLength before, before.count '\n' + 1, (Text.lastLine before).length + 1⟩ := by
  rw [ofOffset, Text.takeBytes_byteLength_append, Text.lastLine, List.length_reverse]

def Text.linesBetween (cs : List Char) (top bottom : Nat) : List (List Char) :=
  ((lines cs).drop (top - 1)).take (bottom + 1 - top)

namespace Snippet

theorem prefix_trimReturns (line : List Char) : trimReturns line <+: line := by
  rw [trimReturns, ← List.reverse_suffix, List.reverse_reverse]
  exact List.dropWhile_suffix _

theorem exists_returns (line : List Char) :
    ∃ returns, line = trimReturns line ++ returns ∧ ∀ c ∈ returns, c = '\r' := by
  refine ⟨(line.reverse.takeWhile (· == '\r')).reverse, ?_, ?_⟩
  · rw [trimReturns, ← List.reverse_append, List.takeWhile_append_dropWhile, List.reverse_reverse]
  · intro c hc
    have hall := List.all_eq_true.mp List.all_takeWhile c (List.mem_reverse.mp hc)
    simpa using hall

/-- A text that does not end with a carriage return is kept where it ends a line. -/
def IsFirm (text : List Char) : Prop :=
  ∀ c ∈ text.getLast?, c ≠ '\r'

theorem IsFirm.of_not_mem {text : List Char} (h : '\r' ∉ text) : IsFirm text := by
  rintro c hc rfl
  exact h (List.mem_of_getLast? hc)

theorem IsFirm.append_left {text : List Char} (h : IsFirm text) (hne : text ≠ [])
    (before : List Char) : IsFirm (before ++ text) := by
  intro c hc
  rw [List.getLast?_append, List.getLast?_eq_some_getLast hne, Option.some_or] at hc
  exact h c (List.getLast?_eq_some_getLast hne ▸ hc)

theorem trimReturns_append {text : List Char} (hne : text ≠ []) (h : IsFirm text)
    (rest : List Char) : trimReturns (text ++ rest) = text ++ trimReturns rest := by
  obtain ⟨before, c, rfl⟩ := (List.eq_nil_or_concat text).resolve_left hne
  have hc : c ≠ '\r' := h c (by simp)
  rw [trimReturns, List.reverse_append, List.dropWhile_append, trimReturns]
  split
  · next hnil => simp [hc, List.isEmpty_iff.mp hnil]
  · simp

/-- A line number is as wide as the column that is made for it. -/
theorem gutter_length (number : Nat) :
    gutter (toString number).length number =
      " ".toList ++ (toString number).toList ++ " | ".toList := by
  rw [gutter, String.length_toList, Nat.sub_self]
  rfl

theorem newline_not_mem_gutter (width number : Nat) : '\n' ∉ gutter width number := by
  have hdigits : '\n' ∉ Nat.toDigits 10 number := fun h =>
    absurd (Nat.isDigit_of_mem_toDigits (by decide) (by decide) h) (by decide)
  simp [gutter, hdigits]

theorem newline_not_mem_numbered {width number : Nat} {ls : List (List Char)}
    (h : ∀ line ∈ ls, '\n' ∉ line) : ∀ row ∈ numbered width number ls, '\n' ∉ row := by
  induction ls generalizing number with
  | nil => simp [numbered]
  | cons line ls ih =>
    intro row hrow
    rcases List.mem_cons.mp hrow with rfl | hrow
    · have hline := h line (List.mem_cons_self ..)
      rw [List.mem_append, not_or]
      exact ⟨newline_not_mem_gutter _ _, fun hmem => hline ((prefix_trimReturns line).subset hmem)⟩
    · exact ih (fun l hl => h l (List.mem_cons_of_mem line hl)) row hrow

theorem newline_not_mem_rows (source : List Char) (span : Span) :
    ∀ row ∈ rows source span, '\n' ∉ row := by
  intro row hrow
  simp only [rows, List.mem_append] at hrow
  rcases hrow with hrow | hrow
  · refine newline_not_mem_numbered (fun line hline => ?_) row hrow
    exact Text.newline_not_mem_of_mem_lines (List.mem_of_mem_drop (List.mem_of_mem_take hline))
  · split at hrow
    · obtain rfl := List.mem_singleton.mp hrow
      simp [marker]
    · cases hrow

theorem numbered_append_singleton (width number : Nat) (ls : List (List Char)) (line : List Char) :
    numbered width number (ls ++ [line]) =
      numbered width number ls ++ [gutter width (number + ls.length) ++ trimReturns line] := by
  induction ls generalizing number with
  | nil => rfl
  | cons l ls ih =>
    have hnumber : number + 1 + ls.length = number + (l :: ls).length := by
      rw [List.length_cons]
      omega
    rw [List.cons_append, numbered, ih, numbered, List.cons_append, hnumber]

theorem rows_eq (before marked after : List Char) :
    rows (before ++ (marked ++ after))
        ⟨Text.byteLength before, Text.byteLength (before ++ marked)⟩ =
      numbered (toString ((before ++ marked).count '\n' + 1)).length (max 1 (before.count '\n'))
          (Text.linesBetween (before ++ (marked ++ after)) (max 1 (before.count '\n'))
            ((before ++ marked).count '\n' + 1)) ++
        if '\n' ∈ marked then []
        else [marker (toString ((before ++ marked).count '\n' + 1)).length
          ((Text.lastLine before).length + 1) (max 1 marked.length)] := by
  have hfirst := Location.ofOffset_byteLength before (marked ++ after)
  have hlast := Location.ofOffset_byteLength (before ++ marked) after
  rw [List.append_assoc] at hlast
  simp only [rows, hfirst, hlast, Nat.add_sub_cancel, Text.linesBetween]
  by_cases hmarked : '\n' ∈ marked
  · have hcount := List.count_pos_iff.mpr hmarked
    have hne : before.count '\n' + 1 ≠ (before ++ marked).count '\n' + 1 := by
      rw [List.count_append]
      omega
    rw [if_neg hne, if_pos hmarked]
  · have hcount : (before ++ marked).count '\n' = before.count '\n' := by
      rw [List.count_append, List.count_eq_zero.mpr hmarked, Nat.add_zero]
    have hlen : (Text.lastLine (before ++ marked)).length + 1 - ((Text.lastLine before).length + 1) =
        marked.length := by
      rw [Text.lastLine_append_of_not_mem hmarked, List.length_append]
      omega
    rw [hcount, if_pos rfl, if_neg hmarked, hlen]

/-- The rows that show a span without a line feed: the last ones are its line and the carets. -/
theorem exists_rows (before : List Char) {marked rest head : List Char} {down : List (List Char)}
    (hmarked : '\n' ∉ marked) (hrest : Text.lines rest = head :: down) :
    ∃ above width,
      width = (toString (before.count '\n' + 1)).length ∧
      (Text.lines (before ++ (marked ++ rest)))[before.count '\n']? =
        some (Text.lastLine before ++ (marked ++ head)) ∧
      rows (before ++ (marked ++ rest))
          ⟨Text.byteLength before, Text.byteLength (before ++ marked)⟩ =
        above ++ [gutter width (before.count '\n' + 1) ++
            trimReturns (Text.lastLine before ++ (marked ++ head)),
          marker width ((Text.lastLine before).length + 1) (max 1 marked.length)] := by
  obtain ⟨up, hup, hlines⟩ := Text.exists_lines_append before (marked ++ rest)
  rw [Text.lines_append_of_not_mem (Text.newline_not_mem_lastLine before)
    (Text.lines_append_of_not_mem hmarked hrest)] at hlines
  have hrows := rows_eq before marked rest
  simp only [List.count_append, List.count_eq_zero.mpr hmarked, Nat.add_zero, if_neg hmarked] at hrows
  generalize Text.lastLine before ++ (marked ++ head) = line at hlines ⊢
  generalize before.count '\n' = n at hup hrows ⊢
  have hdrop : max 1 n - 1 ≤ up.length := by omega
  refine ⟨numbered (toString (n + 1)).length (max 1 n) (up.drop (max 1 n - 1)), _, rfl, ?_, ?_⟩
  · rw [hlines, ← hup]
    simp
  · have hshown : ((up ++ line :: down).drop (max 1 n - 1)).take (n + 1 + 1 - max 1 n) =
        up.drop (max 1 n - 1) ++ [line] := by
      have hlen : (up.drop (max 1 n - 1)).length = n + 1 - max 1 n := by
        rw [List.length_drop]
        omega
      rw [List.drop_append_of_le_length hdrop, List.take_append, hlen]
      have hone : n + 1 + 1 - max 1 n - (n + 1 - max 1 n) = 1 := by omega
      rw [hone, List.take_of_length_le (by omega)]
      rfl
    have hnumber : max 1 n + (up.drop (max 1 n - 1)).length = n + 1 := by
      rw [List.length_drop]
      omega
    rw [hrows, Text.linesBetween, hlines, hshown, numbered_append_singleton, hnumber, List.append_assoc,
      List.singleton_append]

end Snippet

end GraphQLText
