/-!
# Lines

A text is cut into lines at each line feed. The cut loses nothing: joining the lines with line
feeds gives the text back.
-/

namespace GraphQLText.Text

set_option autoImplicit false

/-- The lines of a text. There is always at least one, and none holds a line feed. -/
def lines : List Char → List (List Char)
  | [] => [[]]
  | c :: cs =>
    if c = '\n' then
      [] :: lines cs
    else
      match lines cs with
      | [] => [[c]]
      | line :: rest => (c :: line) :: rest

def unlines (ls : List (List Char)) : List Char :=
  List.intercalate ['\n'] ls

theorem lines_ne_nil (cs : List Char) : lines cs ≠ [] := by
  cases cs with
  | nil => simp [lines]
  | cons c cs =>
    simp only [lines]
    split
    · simp
    · split <;> simp

@[simp] theorem lines_newline (cs : List Char) : lines ('\n' :: cs) = [] :: lines cs := by
  simp [lines]

theorem lines_cons_of_ne {c : Char} (h : c ≠ '\n') (cs : List Char) :
    ∃ line rest, lines cs = line :: rest ∧ lines (c :: cs) = (c :: line) :: rest := by
  cases hl : lines cs with
  | nil => exact absurd hl (lines_ne_nil cs)
  | cons line rest => exact ⟨line, rest, rfl, by simp [lines, h, hl]⟩

@[simp] theorem unlines_cons_cons (l m : List Char) (ls : List (List Char)) :
    unlines (l :: m :: ls) = l ++ '\n' :: unlines (m :: ls) := by
  simp [unlines, List.intercalate]

@[simp] theorem unlines_singleton (l : List Char) : unlines [l] = l := by
  simp [unlines, List.intercalate]

theorem unlines_lines (cs : List Char) : unlines (lines cs) = cs := by
  induction cs with
  | nil => simp [lines]
  | cons c cs ih =>
    by_cases h : c = '\n'
    · subst h
      cases hl : lines cs with
      | nil => exact absurd hl (lines_ne_nil cs)
      | cons m ls => rw [lines_newline, hl, unlines_cons_cons, ← hl, ih]; rfl
    · obtain ⟨line, rest, hl, hc⟩ := lines_cons_of_ne h cs
      rw [hc]
      rw [hl] at ih
      cases rest with
      | nil => simpa using ih
      | cons m ls => simpa using ih

theorem newline_not_mem_of_mem_lines {cs line : List Char} (h : line ∈ lines cs) :
    '\n' ∉ line := by
  induction cs generalizing line with
  | nil => simp_all [lines]
  | cons c cs ih =>
    by_cases hc : c = '\n'
    · subst hc
      rw [lines_newline, List.mem_cons] at h
      rcases h with rfl | h
      · simp
      · exact ih h
    · obtain ⟨first, rest, hl, hcs⟩ := lines_cons_of_ne hc cs
      rw [hcs, List.mem_cons] at h
      rcases h with rfl | h
      · have hf : '\n' ∉ first := ih (by simp [hl])
        simp [hf, Ne.symm hc]
      · exact ih (by simp [hl, h])

end GraphQLText.Text
