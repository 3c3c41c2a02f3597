import GraphQLText.Proofs.Lexing.Cuts

/-!
# Escaped triple marks

A text that goes into a block string gets a backslash before each of its triple marks. They are looked
for from left to right, so that the first three of four or five marks in a row are one. The scanner then
takes none of them for the end of the string. It gives the text back as it was and stops behind the mark
that does close the string, whatever follows.
-/

namespace GraphQLText

set_option autoImplicit false

namespace Text

variable {old new : List Char}

/-- The second text is the first one with `new` in place of each `old`, looked for from left to right.
Where an `old` follows `before`, none begins sooner, since it would also end sooner. -/
inductive Replaces (old new : List Char) : List Char → List Char → Prop where
  | rest {cs : List Char} : ¬ old <:+: cs → Replaces old new cs cs
  | next {before cs ds : List Char} : ¬ old <:+: before ++ old.dropLast → Replaces old new cs ds →
      Replaces old new (before ++ (old ++ cs)) (before ++ (new ++ ds))

theorem dropLast_prefix_append (before old cs : List Char) :
    before ++ old.dropLast <+: before ++ (old ++ cs) :=
  (List.prefix_append_right_inj before).mpr
    ((List.dropLast_prefix old).trans (List.prefix_append old cs))

theorem not_begins_of_next {c : Char} {before : List Char}
    (h : ¬ old <:+: c :: before ++ old.dropLast) (cs : List Char) :
    ¬ old <+: c :: before ++ (old ++ cs) := by
  intro hold
  have hlength : old.length ≤ (c :: before ++ old.dropLast).length := by
    simp only [List.length_append, List.length_cons, List.length_dropLast]
    omega
  have hfront := dropLast_prefix_append (c :: before) old cs
  exact h (List.prefix_of_prefix_length_le hold hfront hlength).isInfix

/-- A character that no `old` begins with stays where it is. -/
theorem Replaces.cons {c : Char} {cs ds : List Char} (h : ¬ old <+: c :: cs)
    (hrest : Replaces old new cs ds) : Replaces old new (c :: cs) (c :: ds) := by
  cases hrest with
  | rest hno =>
    apply Replaces.rest
    rw [List.infix_cons_iff]
    rintro (hfirst | hlater)
    · exact h hfirst
    · exact hno hlater
  | @next before cs ds hno hrest =>
    have hnone : ¬ old <:+: c :: before ++ old.dropLast := by
      rw [List.cons_append, List.infix_cons_iff]
      rintro (hfirst | hlater)
      · exact h (hfirst.trans (dropLast_prefix_append (c :: before) old cs))
      · exact hno hlater
    exact .next hnone hrest

end Text

namespace BlockString

theorem escapeMarks_eq_self {text : List Char} (h : ¬ closingMark <:+: text) :
    escapeMarks text = text := by
  fun_induction escapeMarks text with
  | case1 => rfl
  | case2 rest =>
    have hfirst : closingMark <+: '"' :: '"' :: '"' :: rest := List.prefix_append closingMark rest
    exact absurd hfirst.isInfix h
  | case3 c rest _ ih =>
    rw [List.infix_cons_iff, not_or] at h
    rw [ih h.2]

theorem escapeMarks_next {before : List Char}
    (h : ¬ closingMark <:+: before ++ closingMark.dropLast) (rest : List Char) :
    escapeMarks (before ++ (closingMark ++ rest)) =
      before ++ (escapedMark ++ escapeMarks rest) := by
  induction before with
  | nil => rfl
  | cons c before ih =>
    have hbegin := Text.not_begins_of_next h rest
    rw [List.cons_append, List.infix_cons_iff, not_or] at h
    rw [List.cons_append, escapeMarks_cons, ih h.2, List.cons_append]
    -- otherwise `c` and the two characters behind it would be a mark
    rintro more rfl heq
    rw [List.cons_append, heq] at hbegin
    exact hbegin (List.prefix_append closingMark more)

/-- Escaping replaces the triple marks from left to right, and that can be done in one way only. -/
theorem replaces_iff {text escaped : List Char} :
    Text.Replaces closingMark escapedMark text escaped ↔ escaped = escapeMarks text := by
  constructor
  · intro h
    induction h with
    | rest hno => exact (escapeMarks_eq_self hno).symm
    | next hno _ ih => rw [escapeMarks_next hno, ih]
  · rintro rfl
    fun_induction escapeMarks text with
    | case1 => exact .rest (by decide)
    | case2 rest ih =>
      have hnone : ¬ closingMark <:+: [] ++ closingMark.dropLast := by decide
      exact Text.Replaces.next hnone ih
    | case3 c rest hno ih => exact ih.cons (not_begins_closingMark hno)

theorem read_closingMark (rest : List Char) : read (closingMark ++ rest) = .ok ([], rest) := by
  simp [closingMark, read]

/-- A text without control characters other than tabs and line ends is scanned as it was before its
triple marks were escaped, up to the mark on the line below it. Whatever follows that mark is left. -/
theorem read_escapeMarks_closingMark {text : List Char}
    (hcontrol : ∀ c ∈ text, c < ' ' → c = '\t' ∨ c = '\n' ∨ c = '\r') (rest : List Char) :
    (∀ escaped, Text.Replaces closingMark escapedMark text escaped ↔ escaped = escapeMarks text) ∧
    read (escapeMarks text ++ '\n' :: (closingMark ++ rest)) = .ok (text ++ ['\n'], rest) ∧
    readCut? (escapeMarks text ++ '\n' :: (closingMark ++ rest))
        (Text.bytes (escapeMarks text ++ '\n' :: (closingMark ++ rest))) [] 0 0 =
      some (.ok (text ++ ['\n'], rest)) ∧
    Scan.token? '"' ('"' :: '"' :: (escapeMarks text ++ '\n' :: (closingMark ++ rest))) =
      .token (.blockString (String.ofList (value (text ++ ['\n'])))) rest := by
  have hallowed : ∀ c ∈ text, isForbidden c = false := fun c hc =>
    isForbidden_eq_false (hcontrol c hc)
  have hread : read (escapeMarks text ++ '\n' :: (closingMark ++ rest)) =
      .ok (text ++ ['\n'], rest) := by
    rw [read_escapeMarks hallowed, read_closingMark]
    simp [Except.map]
  have hcut := readCut?_eq [] [] (escapeMarks text ++ '\n' :: (closingMark ++ rest)) []
  rw [hread] at hcut
  have hlead : Lead.ofChar '"' = .mark := by decide
  refine ⟨fun escaped => replaces_iff, hread, hcut, ?_⟩
  simp only [Scan.token?, hlead, Scan.string, hread]

/-- Seven marks in a row, and behind a tab a backslash with four marks up to the end of the line. -/
theorem read_escapeMarks_closingMark_runs :
    (∀ c ∈ "\"\"\"\"\"\"\"\r\n\té\\\"\"\"\"".toList, c < ' ' → c = '\t' ∨ c = '\n' ∨ c = '\r') ∧
      read "\\\"\"\"\\\"\"\"\"\r\n\té\\\\\"\"\"\"\n\"\"\"\"".toList =
        .ok ("\"\"\"\"\"\"\"\r\n\té\\\"\"\"\"\n".toList, ['"']) ∧
      Scan.token? '"' "\"\"\\\"\"\"\\\"\"\"\"\r\n\té\\\\\"\"\"\"\n\"\"\"\"".toList =
        .token (.blockString "\"\"\"\"\"\"\"\né\\\"\"\"\"") ['"'] := by
  have hcontrol : ∀ c ∈ "\"\"\"\"\"\"\"\r\n\té\\\"\"\"\"".toList,
      c < ' ' → c = '\t' ∨ c = '\n' ∨ c = '\r' := by simp
  have hvalue : value ("\"\"\"\"\"\"\"\r\n\té\\\"\"\"\"".toList ++ ['\n']) =
      "\"\"\"\"\"\"\"\né\\\"\"\"\"".toList := by decide +kernel
  obtain ⟨-, hread, -, htoken⟩ := read_escapeMarks_closingMark hcontrol ['"']
  rw [hvalue] at htoken
  exact ⟨hcontrol, hread, htoken⟩

end BlockString

end GraphQLText
