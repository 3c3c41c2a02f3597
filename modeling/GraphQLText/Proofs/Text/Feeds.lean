import GraphQLText.Proofs.Text.Lines
import GraphQLText.Text.Excerpt

/-!
# Line feeds around a position

The first line feed behind a position ends the line there, and the last one before it begins that line.
Between the two lie whole lines, and the lines of the source are theirs with others above and below.
-/

namespace GraphQLText.Text

set_option autoImplicit false

theorem firstFeed?_of_not_mem {cs : List Char} (h : '\n' ∉ cs) : firstFeed? cs = none := by
  induction cs with
  | nil => rfl
  | cons c cs ih =>
    rw [List.mem_cons, not_or] at h
    rw [firstFeed?, if_neg (Ne.symm h.1), ih h.2, Option.map_none]

theorem firstFeed?_append_newline {line : List Char} (h : '\n' ∉ line) (rest : List Char) :
    firstFeed? (line ++ '\n' :: rest) = some (byteLength line) := by
  induction line with
  | nil => rfl
  | cons c line ih =>
    rw [List.mem_cons, not_or] at h
    rw [List.cons_append, firstFeed?, if_neg (Ne.symm h.1), ih h.2, Option.map_some, byteLength_cons]

theorem lastFeed?_of_not_mem {cs : List Char} (h : '\n' ∉ cs) : lastFeed? cs = none := by
  induction cs with
  | nil => rfl
  | cons c cs ih =>
    rw [List.mem_cons, not_or] at h
    rw [lastFeed?, ih h.2]
    exact if_neg (Ne.symm h.1)

theorem lastFeed?_append_newline (before : List Char) {line : List Char} (h : '\n' ∉ line) :
    lastFeed? (before ++ '\n' :: line) = some (byteLength before) := by
  induction before with
  | nil =>
    rw [List.nil_append, lastFeed?, lastFeed?_of_not_mem h]
    rfl
  | cons c before ih => rw [List.cons_append, lastFeed?, ih, byteLength_cons]

/-- The text is nothing, or it ends with a line feed. -/
def IsWholeLines (cs : List Char) : Prop :=
  cs = [] ∨ ∃ before, cs = before ++ ['\n']

theorem IsWholeLines.exists_lines {above : List Char} (h : IsWholeLines above) :
    ∃ up, up.length = above.count '\n' ∧ ∀ rest, lines (above ++ rest) = up ++ lines rest := by
  rcases h with rfl | ⟨before, rfl⟩
  · exact ⟨[], rfl, fun _ => rfl⟩
  · refine ⟨lines before, ?_, fun rest => ?_⟩
    · rw [length_lines, List.count_append, List.count_singleton_self]
    · rw [List.append_assoc, List.singleton_append, lines_append_newline_cons]

/-- Before the last line of a text stand whole lines. -/
theorem exists_lastStart (cs : List Char) :
    ∃ above, cs = above ++ lastLine cs ∧ lastStart cs = byteLength above ∧ IsWholeLines above := by
  have hlast := newline_not_mem_lastLine cs
  rcases eq_lastLine_or cs with heq | ⟨before, heq⟩
  · refine ⟨[], heq, ?_, .inl rfl⟩
    rw [lastStart, heq, lastFeed?_of_not_mem hlast]
    rfl
  · refine ⟨before ++ ['\n'], by rwa [List.append_assoc, List.singleton_append], ?_, .inr ⟨before, rfl⟩⟩
    have hfeed := lastFeed?_append_newline before hlast
    rw [← heq] at hfeed
    rw [lastStart, hfeed, byteLength_append]
    rfl

theorem lastStart_eq_zero_iff {cs : List Char} : lastStart cs = 0 ↔ cs.count '\n' = 0 := by
  obtain ⟨above, hcs, hstart, hwhole⟩ := exists_lastStart cs
  have hcount := congrArg (List.count '\n') hcs
  rw [List.count_append, count_lastLine, Nat.add_zero] at hcount
  rw [hstart, hcount]
  rcases hwhole with rfl | ⟨before, rfl⟩
  · exact ⟨fun _ => rfl, fun _ => rfl⟩
  · have hlen : byteLength (before ++ ['\n']) = byteLength before + 1 := byteLength_append ..
    rw [hlen, List.count_append, List.count_singleton_self]
    omega

/-- What stands behind a position is the rest of the line there, and then nothing or a line feed. -/
theorem exists_lineStop (front behind : List Char) :
    ∃ line rest, behind = line ++ rest ∧ '\n' ∉ line ∧
      lineStop (byteLength front) behind (front ++ behind) = byteLength (front ++ line) ∧
      ∃ down, ∀ shown, lines (shown ++ rest) = lines shown ++ down := by
  by_cases hmem : '\n' ∈ behind
  · obtain ⟨line, rest, rfl, hline⟩ := List.eq_append_cons_of_mem hmem
    refine ⟨line, '\n' :: rest, rfl, hline, ?_, lines rest, fun shown => ?_⟩
    · rw [lineStop, firstFeed?_append_newline hline, Option.elim_some, byteLength_append]
    · rw [lines_append_newline_cons]
  · refine ⟨behind, [], (List.append_nil _).symm, hmem, ?_, [], fun shown => ?_⟩
    · rw [lineStop, firstFeed?_of_not_mem hmem]
      rfl
    · rw [List.append_nil, List.append_nil]

/-- The lines of a text between two others that stand on lines of their own. -/
theorem take_drop_lines {above shown below : List Char} {down : List (List Char)}
    (habove : IsWholeLines above) (hbelow : lines (shown ++ below) = lines shown ++ down) :
    ((lines (above ++ (shown ++ below))).drop (above.count '\n')).take (shown.count '\n' + 1) =
      lines shown := by
  obtain ⟨up, hup, hlines⟩ := habove.exists_lines
  rw [hlines, hbelow, List.drop_left' hup, List.take_left' (length_lines shown)]

end GraphQLText.Text
