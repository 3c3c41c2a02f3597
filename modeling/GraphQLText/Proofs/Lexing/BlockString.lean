import GraphQLText.Proofs.Text.Lines
import GraphQLText.Token.BlockString

/-!
# Reading back block strings

Escaping the triple marks of a line is undone by reading it, and the indentation that a written
block string gets is taken off again. So a block string is read back to the value that it was
written for, at any depth, if a block string can hold that value at all.
-/

namespace GraphQLText.BlockString

set_option autoImplicit false

open Text (lines unlines)

theorem escapeMarks_cons {c : Char} {rest : List Char}
    (h : ∀ more, c = '"' → rest ≠ '"' :: '"' :: more) :
    escapeMarks (c :: rest) = c :: escapeMarks rest := by
  rw [escapeMarks]
  exact fun more hc hr => h more hc hr

theorem begins_of_escapeMarks {text rest more : List Char}
    (h : escapeMarks text ++ '\n' :: rest = '"' :: more) :
    ∃ tail, text = '"' :: tail ∧ escapeMarks tail ++ '\n' :: rest = more := by
  fun_cases escapeMarks text with
  | case1 => simp [escapeMarks] at h
  | case2 tail => simp [escapeMarks] at h
  | case3 c tail hno =>
    rw [escapeMarks_cons hno] at h
    simp only [List.cons_append, List.cons.injEq] at h
    obtain ⟨rfl, h⟩ := h
    exact ⟨tail, rfl, h⟩

theorem escapeMarks_ne_triple (text rest more : List Char) :
    escapeMarks text ++ '\n' :: rest ≠ '"' :: '"' :: '"' :: more := by
  intro h
  obtain ⟨tail, rfl, h2⟩ := begins_of_escapeMarks h
  obtain ⟨tail, rfl, h3⟩ := begins_of_escapeMarks h2
  obtain ⟨tail, rfl, _⟩ := begins_of_escapeMarks h3
  simp [escapeMarks] at h

theorem read_cons {c : Char} {rest : List Char}
    (hb : ∀ more, c = '\\' → rest ≠ '"' :: '"' :: '"' :: more)
    (hq : ∀ more, c = '"' → rest ≠ '"' :: '"' :: more) (hc : isForbidden c = false) :
    read (c :: rest) = (read rest).map fun (raw, after) => (c :: raw, after) := by
  rw [read]
  · simp [hc]
  · exact fun more he hr => hb more he hr
  · exact fun more he hr => hq more he hr

theorem map_prepend (xs ys : List Char) (o : Except Fault (List Char × List Char)) :
    (o.map fun (raw, after) => (ys ++ raw, after)).map (fun (raw, after) => (xs ++ raw, after)) =
      o.map fun (raw, after) => (xs ++ ys ++ raw, after) := by
  cases o with
  | error f => rfl
  | ok p => simp [Except.map]

/-- What is put before the raw text of a block string leaves what is behind the string. -/
theorem read_eq_ok_of_map (xs : List Char) {cs raw rest : List Char}
    (h : ((read cs).map fun (raw, after) => (xs ++ raw, after)) = .ok (raw, rest)) :
    ∃ more, read cs = .ok (more, rest) ∧ raw = xs ++ more := by
  cases hr : read cs with
  | error f => simp [hr, Except.map] at h
  | ok p =>
    simp only [hr, Except.map, Except.ok.injEq, Prod.mk.injEq] at h
    exact ⟨p.1, by rw [← h.2], h.1.symm⟩

/-- Reading undoes the escapes of a line and goes on behind its end. -/
theorem read_escapeMarks {text : List Char} (h : ∀ c ∈ text, isForbidden c = false)
    (rest : List Char) :
    read (escapeMarks text ++ '\n' :: rest) =
      (read rest).map fun (raw, after) => (text ++ ['\n'] ++ raw, after) := by
  fun_induction escapeMarks text with
  | case1 =>
    exact read_cons (by simp) (by simp) (by decide)
  | case2 tail ih =>
    have htail := ih fun c hc => h c (by simp [hc])
    simp only [List.cons_append]
    rw [read, htail]
    exact map_prepend ['"', '"', '"'] (tail ++ ['\n']) (read rest)
  | case3 c tail hno ih =>
    have htail := ih fun d hd => h d (by simp [hd])
    rw [List.cons_append, read_cons, htail]
    · exact map_prepend [c] (tail ++ ['\n']) (read rest)
    · exact fun more _ => escapeMarks_ne_triple tail rest more
    · intro more hc hbegin
      obtain ⟨tail, rfl, h2⟩ := begins_of_escapeMarks hbegin
      obtain ⟨tail, rfl, _⟩ := begins_of_escapeMarks h2
      exact hno tail hc rfl
    · exact h c (by simp)

/-- A line as it lies at a depth, its marks not yet escaped. -/
def indented (level : Nat) (line : List Char) : List Char :=
  if line.isEmpty then [] else indentation level ++ line

theorem escapeMarks_indentation (level : Nat) (line : List Char) :
    escapeMarks (indentation level ++ line) = indentation level ++ escapeMarks line := by
  unfold indentation
  induction 2 * level with
  | zero => rfl
  | succ n ih =>
    rw [List.replicate_succ, List.cons_append, escapeMarks_cons (by simp), ih, List.cons_append]

theorem writeLine_eq (level : Nat) (line : List Char) :
    writeLine level line = escapeMarks (indented level line) ++ ['\n'] := by
  unfold writeLine indented
  split
  · rfl
  · rw [escapeMarks_indentation]

theorem mem_indentation {level : Nat} {c : Char} (h : c ∈ indentation level) : c = ' ' :=
  List.eq_of_mem_replicate h

theorem mem_indented {level : Nat} {line : List Char} {c : Char} (h : c ∈ indented level line) :
    c = ' ' ∨ c ∈ line := by
  unfold indented at h
  split at h
  · simp at h
  · rcases List.mem_append.mp h with h | h
    · exact .inl (mem_indentation h)
    · exact .inr h

theorem read_writeLines (level : Nat) (rest : List Char) {ls : List (List Char)}
    (h : ∀ l ∈ ls, ∀ c ∈ l, isForbidden c = false) :
    read (ls.flatMap (writeLine level) ++ rest) =
      (read rest).map fun (raw, after) =>
        (ls.flatMap (fun l => indented level l ++ ['\n']) ++ raw, after) := by
  induction ls with
  | nil => cases hr : read rest <;> simp [hr, Except.map]
  | cons l ls ih =>
    have hl : ∀ c ∈ indented level l, isForbidden c = false := by
      intro c hc
      rcases mem_indented hc with rfl | hc
      · decide
      · exact h l (by simp) c hc
    rw [List.flatMap_cons, writeLine_eq, List.append_assoc, List.append_assoc,
      List.singleton_append, read_escapeMarks hl, ih fun l hl => h l (by simp [hl])]
    exact map_prepend (indented level l ++ ['\n']) _ (read rest)

theorem read_indentation (level : Nat) (rest : List Char) :
    read (indentation level ++ '"' :: '"' :: '"' :: rest) = .ok (indentation level, rest) := by
  unfold indentation
  induction 2 * level with
  | zero => simp [read]
  | succ n ih =>
    rw [List.replicate_succ, List.cons_append, read_cons (by simp) (by simp) (by decide), ih]
    rfl

/-- The text between the marks of a block that is written for the given lines. -/
def rawLines (level : Nat) (ls : List (List Char)) : List (List Char) :=
  [] :: ls.map (indented level) ++ [indentation level]

theorem unlines_rawLines (level : Nat) (ls : List (List Char)) :
    unlines (rawLines level ls) =
      '\n' :: (ls.flatMap fun l => indented level l ++ ['\n']) ++ indentation level := by
  have tail : ∀ (m : List Char) (ls : List (List Char)),
      unlines (m :: ls ++ [indentation level]) =
        m ++ '\n' :: (ls.flatMap fun l => l ++ ['\n']) ++ indentation level := by
    intro m ls
    induction ls generalizing m with
    | nil => simp
    | cons l ls ih =>
      have hl := ih l
      simp only [List.cons_append] at hl ⊢
      rw [Text.unlines_cons_cons, hl]
      simp
  rw [rawLines, tail, List.flatMap_map]
  rfl

/-- Reading a written block gives its lines as they lie, whatever follows the closing mark. -/
theorem read_write (level : Nat) (rest : List Char) {text : List Char}
    (h : ∀ l ∈ lines text, ∀ c ∈ l, isForbidden c = false) :
    read ('\n' :: (lines text).flatMap (writeLine level) ++ indentation level ++
        '"' :: '"' :: '"' :: rest) =
      .ok (unlines (rawLines level (lines text)), rest) := by
  rw [List.cons_append, List.cons_append, List.append_assoc,
    read_cons (by simp) (by simp) (by decide), read_writeLines level _ h, read_indentation,
    unlines_rawLines]
  rfl

theorem normalizeLineEnds_of_not_mem {cs : List Char} (h : '\r' ∉ cs) :
    normalizeLineEnds cs = cs := by
  fun_induction normalizeLineEnds cs with
  | case1 => rfl
  | case2 => simp at h
  | case3 => simp at h
  | case4 c cs _ _ ih => rw [ih fun hm => h (by simp [hm])]

theorem isBlank_append {indent : List Char} (h : ∀ c ∈ indent, isIndent c = true)
    (line : List Char) : isBlank (indent ++ line) = isBlank line := by
  rw [isBlank, List.all_append, List.all_eq_true.mpr h, Bool.true_and, isBlank]

theorem indentWidth_append {indent : List Char} (h : ∀ c ∈ indent, isIndent c = true)
    (line : List Char) : indentWidth (indent ++ line) = indent.length + indentWidth line := by
  rw [indentWidth, List.takeWhile_append_of_pos h, List.length_append, indentWidth]

theorem isIndent_of_mem_indentation {level : Nat} {c : Char} (h : c ∈ indentation level) :
    isIndent c = true := by
  rw [mem_indentation h]
  decide

theorem isBlank_indentation (level : Nat) : isBlank (indentation level) = true :=
  List.all_eq_true.mpr fun _ => isIndent_of_mem_indentation

theorem indentWidth_indented {level : Nat} {line : List Char} (h : isBlank line = false) :
    indentWidth (indented level line) = 2 * level + indentWidth line := by
  have hne : line ≠ [] := by rintro rfl; simp [isBlank] at h
  have hlen : (indentation level).length = 2 * level := by simp [indentation]
  rw [indented, if_neg (by simpa using hne),
    indentWidth_append (fun _ => isIndent_of_mem_indentation), hlen]

theorem isBlank_indented (level : Nat) (line : List Char) :
    isBlank (indented level line) = isBlank line := by
  unfold indented
  split
  · next he => simp [isBlank, List.isEmpty_iff.mp he]
  · exact isBlank_append (fun _ => isIndent_of_mem_indentation) line

theorem drop_indented (level : Nat) (line : List Char) :
    (indented level line).drop (2 * level) = line := by
  unfold indented
  split
  · next he => simp [List.isEmpty_iff.mp he]
  · rw [List.drop_left' (by simp [indentation])]

theorem not_isBlank_of_isFlush {line : List Char} (h : isFlush line = true) :
    isBlank line = false := by
  cases line with
  | nil => cases h
  | cons c rest => simp_all [isFlush, isBlank]

/-- The common indentation is that of one of the lines, unless all are blank. -/
theorem exists_indentWidth_eq {ls : List (List Char)} {line : List Char} (hmem : line ∈ ls)
    (hblank : isBlank line = false) :
    ∃ l ∈ ls, isBlank l = false ∧ indentWidth l = commonIndent ls := by
  have hne : ((ls.filter fun line => !isBlank line).map indentWidth) ≠ [] := by
    rw [ne_eq, List.map_eq_nil_iff]
    exact List.ne_nil_of_mem (List.mem_filter.mpr ⟨hmem, by simp [hblank]⟩)
  obtain ⟨n, hn⟩ := Option.isSome_iff_exists.mp (List.isSome_min?_of_ne_nil hne)
  obtain ⟨l, hl, hwidth⟩ := List.mem_map.mp (List.min?_mem hn)
  obtain ⟨hl, hnb⟩ := List.mem_filter.mp hl
  refine ⟨l, hl, by simpa using hnb, ?_⟩
  rw [commonIndent, hn, Option.getD_some, hwidth]

theorem commonIndent_le {ls : List (List Char)} {line : List Char} (hmem : line ∈ ls)
    (hblank : isBlank line = false) : commonIndent ls ≤ indentWidth line := by
  have hwidth : indentWidth line ∈ (ls.filter fun line => !isBlank line).map indentWidth :=
    List.mem_map_of_mem (List.mem_filter.mpr ⟨hmem, by simp [hblank]⟩)
  rw [commonIndent, List.min?_eq_some_min (List.ne_nil_of_mem hwidth), Option.getD_some]
  exact List.min_le_of_mem hwidth

/-- One flush line is enough for the lines to share exactly the indentation of their depth. -/
theorem commonIndent_indented (level : Nat) {ls : List (List Char)}
    (h : ls.any isFlush = true) :
    commonIndent (ls.map (indented level) ++ [indentation level]) = 2 * level := by
  obtain ⟨flush, hmem, hflush⟩ := List.any_eq_true.mp h
  have hblank := not_isBlank_of_isFlush hflush
  have hwidth : indentWidth flush = 0 := by
    cases flush with
    | nil => rfl
    | cons c cs =>
      have hc : ¬ isIndent c = true := by simpa [isFlush] using hflush
      simp [indentWidth, hc]
  have hindented : indented level flush ∈ ls.map (indented level) ++ [indentation level] :=
    List.mem_append_left _ (List.mem_map_of_mem hmem)
  have hnb : isBlank (indented level flush) = false := by rw [isBlank_indented, hblank]
  have hupper := commonIndent_le hindented hnb
  rw [indentWidth_indented hblank, hwidth] at hupper
  obtain ⟨least, hleast, hleastnb, hleastwidth⟩ := exists_indentWidth_eq hindented hnb
  rcases List.mem_append.mp hleast with hleast | hleast
  · obtain ⟨l, -, rfl⟩ := List.mem_map.mp hleast
    rw [isBlank_indented] at hleastnb
    rw [indentWidth_indented hleastnb] at hleastwidth
    omega
  · rw [List.mem_singleton.mp hleast, isBlank_indentation] at hleastnb
    cases hleastnb

theorem dedent_rawLines (level : Nat) {ls : List (List Char)} (h : ls.any isFlush = true) :
    dedent (rawLines level ls) = [] :: ls ++ [[]] := by
  have hdrop : (indentation level).drop (2 * level) = [] := by simp [indentation]
  rw [rawLines, List.cons_append, dedent, commonIndent_indented level h, List.map_append,
    List.map_map]
  simp [Function.comp_def, drop_indented, hdrop]

theorem trimBlank_framed {ls : List (List Char)} (hne : ls ≠ [])
    (hfirst : isBlank (ls.head?.getD []) = false)
    (hlast : isBlank (ls.getLast?.getD []) = false) :
    trimBlank ([] :: ls ++ [[]]) = ls := by
  have front : ([] :: ls ++ [[]]).dropWhile isBlank = ls ++ [[]] := by
    cases ls with
    | nil => exact absurd rfl hne
    | cons l ls =>
      have hl : isBlank l = false := by simpa using hfirst
      rw [List.cons_append, List.dropWhile_cons_of_pos (by rfl), List.cons_append,
        List.dropWhile_cons_of_neg (by simp [hl])]
  have back : (ls ++ [[]]).reverse.dropWhile isBlank = ls.reverse := by
    rw [List.reverse_append, List.reverse_singleton, List.singleton_append,
      List.dropWhile_cons_of_pos (by rfl)]
    rw [List.getLast?_eq_head?_reverse] at hlast
    cases hr : ls.reverse with
    | nil => rfl
    | cons l rest =>
      rw [hr] at hlast
      exact List.dropWhile_cons_of_neg (by simpa using hlast)
  rw [trimBlank, front, back, List.reverse_reverse]

theorem mem_unlines {ls : List (List Char)} {c : Char} (h : c ∈ unlines ls) :
    c = '\n' ∨ ∃ l ∈ ls, c ∈ l := by
  induction ls with
  | nil => simp [unlines, List.intercalate] at h
  | cons l ls ih =>
    cases ls with
    | nil =>
      rw [Text.unlines_singleton] at h
      exact .inr ⟨l, by simp, h⟩
    | cons m ls =>
      rw [Text.unlines_cons_cons, List.mem_append, List.mem_cons] at h
      rcases h with h | h | h
      · exact .inr ⟨l, by simp, h⟩
      · exact .inl h
      · rcases ih h with h | ⟨k, hk, hc⟩
        · exact .inl h
        · exact .inr ⟨k, by simp [hk], hc⟩

/-- What `keeps` asks of the lines of a text. -/
theorem keeps_iff (text : List Char) :
    keeps text = true ↔ text ≠ [] ∧ (∀ l ∈ lines text, ∀ c ∈ l, ' ' ≤ c ∨ c = '\t') ∧
      (lines text).any isFlush = true ∧ isBlank ((lines text).head?.getD []) = false ∧
      isBlank ((lines text).getLast?.getD []) = false := by
  simp [keeps, and_assoc]

theorem isForbidden_eq_false {c : Char} (h : c < ' ' → c = '\t' ∨ c = '\n' ∨ c = '\r') :
    isForbidden c = false := by
  by_cases hc : c < ' '
  · rcases h hc with rfl | rfl | rfl <;> decide
  · simp [isForbidden, hc]

theorem isForbidden_of_printable {c : Char} (h : ' ' ≤ c ∨ c = '\t') : isForbidden c = false := by
  apply isForbidden_eq_false
  intro hc
  exact .inl (h.resolve_left (Char.not_le.mpr hc))

/-- The value of a block that is written for a text is that text, at every depth. -/
theorem value_rawLines (level : Nat) {text : List Char} (h : keeps text = true) :
    value (unlines (rawLines level (lines text))) = text := by
  obtain ⟨_, hchars, hflush, hfirst, hlast⟩ := (keeps_iff text).mp h
  have hnewline : ∀ l ∈ rawLines level (lines text), '\n' ∉ l := by
    intro l hl hmem
    simp only [rawLines, List.cons_append, List.mem_cons, List.mem_append, List.mem_map,
      List.not_mem_nil, or_false] at hl
    rcases hl with rfl | ⟨m, hm, rfl⟩ | rfl
    · simp at hmem
    · rcases mem_indented hmem with hc | hc
      · exact absurd hc (by decide)
      · exact Text.newline_not_mem_of_mem_lines hm hc
    · exact absurd (mem_indentation hmem) (by decide)
  have hreturn : '\r' ∉ unlines (rawLines level (lines text)) := by
    intro hmem
    rcases mem_unlines hmem with hc | ⟨l, hl, hc⟩
    · exact absurd hc (by decide)
    · simp only [rawLines, List.cons_append, List.mem_cons, List.mem_append, List.mem_map,
        List.not_mem_nil, or_false] at hl
      rcases hl with rfl | ⟨m, hm, rfl⟩ | rfl
      · simp at hc
      · rcases mem_indented hc with hc | hc
        · exact absurd hc (by decide)
        · exact absurd (hchars m hm _ hc) (by decide)
      · exact absurd (mem_indentation hc) (by decide)
  rw [value, normalizeLineEnds_of_not_mem hreturn,
    Text.lines_unlines (by simp [rawLines]) hnewline, dedent_rawLines level hflush,
    trimBlank_framed (Text.lines_ne_nil text) hfirst hlast, Text.unlines_lines]

end GraphQLText.BlockString
