import GraphQLText.Text.Lines

/-!
# The lines of a text

Where a text is put together of others, so are its lines. A text up to some place is told from its
whole lines and what stands behind the last line feed.
-/

namespace GraphQLText.Text

set_option autoImplicit false

theorem length_lines (cs : List Char) : (lines cs).length = cs.count '\n' + 1 := by
  induction cs with
  | nil => rfl
  | cons c cs ih =>
    by_cases hc : c = '\n'
    · subst hc
      rw [lines_newline, List.length_cons, ih, List.count_cons_self]
    · obtain ⟨line, rest, hlines, hcons⟩ := lines_cons_of_ne hc cs
      rw [hcons, List.length_cons, List.count_cons_of_ne hc, ← ih, hlines, List.length_cons]

theorem lines_append_newline_cons (xs ys : List Char) :
    lines (xs ++ '\n' :: ys) = lines xs ++ lines ys := by
  induction xs with
  | nil => simp [lines]
  | cons c xs ih =>
    by_cases hc : c = '\n'
    · subst hc
      rw [List.cons_append, lines_newline, lines_newline, ih, List.cons_append]
    · obtain ⟨line, rest, hlines, hcons⟩ := lines_cons_of_ne hc xs
      obtain ⟨line', rest', hlines', hcons'⟩ := lines_cons_of_ne hc (xs ++ '\n' :: ys)
      rw [ih, hlines, List.cons_append] at hlines'
      obtain ⟨rfl, rfl⟩ := List.cons.inj hlines'
      rw [List.cons_append, hcons, hcons', List.cons_append]

/-- What has no line feed goes on with the first of the lines behind it. -/
theorem lines_append_of_not_mem {xs ys head : List Char} {down : List (List Char)}
    (h : '\n' ∉ xs) (hys : lines ys = head :: down) : lines (xs ++ ys) = (xs ++ head) :: down := by
  induction xs with
  | nil => exact hys
  | cons c xs ih =>
    rw [List.mem_cons, not_or] at h
    obtain ⟨line, rest, hlines, hcons⟩ := lines_cons_of_ne (Ne.symm h.1) (xs ++ ys)
    rw [ih h.2] at hlines
    obtain ⟨rfl, rfl⟩ := List.cons.inj hlines
    rw [List.cons_append, hcons, List.cons_append]

theorem lines_of_not_mem {l : List Char} (h : '\n' ∉ l) : lines l = [l] := by
  have hnil : lines (l ++ []) = [l ++ []] := lines_append_of_not_mem h rfl
  rwa [List.append_nil] at hnil

theorem lines_append_newline {l : List Char} (h : '\n' ∉ l) (rest : List Char) :
    lines (l ++ '\n' :: rest) = l :: lines rest := by
  rw [lines_append_newline_cons, lines_of_not_mem h, List.singleton_append]

theorem lines_unlines {ls : List (List Char)} (hne : ls ≠ []) (h : ∀ l ∈ ls, '\n' ∉ l) :
    lines (unlines ls) = ls := by
  induction ls with
  | nil => exact absurd rfl hne
  | cons l ls ih =>
    cases ls with
    | nil => simpa using lines_of_not_mem (h l (by simp))
    | cons m ls =>
      rw [unlines_cons_cons, lines_append_newline (h l (by simp))]
      rw [ih (by simp) fun x hx => h x (by simp [hx])]

def lastLine (cs : List Char) : List Char :=
  (cs.reverse.takeWhile (· != '\n')).reverse

theorem newline_not_mem_lastLine (cs : List Char) : '\n' ∉ lastLine cs := by
  intro h
  have hne := List.all_eq_true.mp List.all_takeWhile _ (List.mem_reverse.mp h)
  simp at hne

theorem count_lastLine (cs : List Char) : (lastLine cs).count '\n' = 0 :=
  List.count_eq_zero.mpr (newline_not_mem_lastLine cs)

theorem lastLine_append_of_not_mem {xs ys : List Char} (h : '\n' ∉ ys) :
    lastLine (xs ++ ys) = lastLine xs ++ ys := by
  have hall : ∀ c ∈ ys.reverse, (c != '\n') = true := by
    intro c hc
    rw [bne_iff_ne]
    rintro rfl
    exact h (List.mem_reverse.mp hc)
  rw [lastLine, List.reverse_append, List.takeWhile_append_of_pos hall, List.reverse_append,
    List.reverse_reverse, lastLine]

/-- A text is its last line, perhaps behind another text and a line feed. -/
theorem eq_lastLine_or (cs : List Char) :
    cs = lastLine cs ∨ ∃ before, cs = before ++ '\n' :: lastLine cs := by
  have hsplit := List.takeWhile_append_dropWhile (p := (· != '\n')) (l := cs.reverse)
  have hstop := List.head?_dropWhile_not (· != '\n') cs.reverse
  cases hdrop : cs.reverse.dropWhile (· != '\n') with
  | nil =>
    rw [hdrop, List.append_nil] at hsplit
    exact .inl (by rw [lastLine, hsplit, List.reverse_reverse])
  | cons c before =>
    rw [hdrop] at hsplit hstop
    have hc : c = '\n' := by simpa using hstop
    have hwhole := congrArg List.reverse hsplit
    rw [hc, List.reverse_append, List.reverse_cons, List.append_assoc, List.singleton_append,
      List.reverse_reverse] at hwhole
    exact .inr ⟨before.reverse, hwhole.symm⟩

theorem lastLine_of_not_mem {cs : List Char} (h : '\n' ∉ cs) : lastLine cs = cs := by
  have hnil : lastLine ([] ++ cs) = [] ++ cs := lastLine_append_of_not_mem h
  exact hnil

theorem lastLine_append_newline (before : List Char) {line : List Char} (h : '\n' ∉ line) :
    lastLine (before ++ '\n' :: line) = line := by
  have hempty : lastLine (before ++ ['\n']) = [] := by simp [lastLine]
  have hline : lastLine (before ++ ['\n'] ++ line) = lastLine (before ++ ['\n']) ++ line :=
    lastLine_append_of_not_mem h
  rwa [List.append_assoc, List.singleton_append, hempty, List.nil_append] at hline

/-- A line feed, or what stands before one, is not on the last line. -/
theorem lastLine_cons_of_mem {c : Char} {cs : List Char} (h : '\n' ∈ c :: cs) :
    lastLine (c :: cs) = lastLine cs := by
  rcases eq_lastLine_or cs with heq | ⟨before, heq⟩
  · have hcs : '\n' ∉ cs := heq ▸ newline_not_mem_lastLine cs
    obtain rfl : '\n' = c := (List.mem_cons.mp h).resolve_right hcs
    rw [lastLine_of_not_mem hcs]
    exact lastLine_append_newline [] hcs
  · have hcons := lastLine_append_newline (c :: before) (newline_not_mem_lastLine cs)
    rwa [List.cons_append, ← heq] at hcons

/-- The lines of a text whose first part is given: the whole ones in that part, and then those from
its last line on. -/
theorem exists_lines_append (before rest : List Char) :
    ∃ up, up.length = before.count '\n' ∧
      lines (before ++ rest) = up ++ lines (lastLine before ++ rest) := by
  have hlast := count_lastLine before
  rcases eq_lastLine_or before with heq | ⟨first, heq⟩
  · refine ⟨[], ?_, ?_⟩
    · rw [heq, hlast, List.length_nil]
    · rw [← heq, List.nil_append]
  · refine ⟨lines first, ?_, ?_⟩
    · rw [heq, List.count_append, List.count_cons_self, hlast, length_lines]
    · rw [← lines_append_newline_cons, ← List.cons_append, ← List.append_assoc, ← heq]

end GraphQLText.Text
