import Mathlib.Data.List.TakeWhile
import GraphQLText.Proofs.Lexing.BlockValue

/-!
# What the value of a block string goes by

The value goes by the lines of the raw text, whatever ends them, and by how far they are indented
against each other. Lines below the first one may be moved together. If the value is not one that a
block string can hold, then a control character is to blame, or the first line stands alone and is
indented: only that one keeps its indentation.
-/

namespace GraphQLText.BlockString

set_option autoImplicit false

open Text (lines unlines)

/-- The lines of a raw text. A line feed ends a line, and so does a carriage return, which takes a
line feed right behind it along. -/
def rawTextLines : List Char → List (List Char)
  | [] => [[]]
  | '\r' :: '\n' :: rest => [] :: rawTextLines rest
  | c :: rest =>
    if c = '\n' ∨ c = '\r' then [] :: rawTextLines rest
    else (rawTextLines rest).modifyHead (c :: ·)

/-- The raw text with the same text put at the beginning of each line but the first. -/
def indentBelow (indent : List Char) : List Char → List Char
  | [] => []
  | '\r' :: '\n' :: rest => '\r' :: '\n' :: (indent ++ indentBelow indent rest)
  | c :: rest =>
    if c = '\n' ∨ c = '\r' then c :: (indent ++ indentBelow indent rest)
    else c :: indentBelow indent rest

/-- The text with another line end in place of each line feed. -/
def withLineEnd (eol : List Char) (raw : List Char) : List Char :=
  raw.flatMap fun c => if c = '\n' then eol else [c]

theorem normalizeLineEnds_cons {c : Char} (h : c ≠ '\r') (rest : List Char) :
    normalizeLineEnds (c :: rest) = c :: normalizeLineEnds rest := by
  rw [normalizeLineEnds]
  · exact fun _ hc _ => h hc
  · exact h

theorem normalizeLineEnds_return {rest : List Char} (h : ∀ more, rest ≠ '\n' :: more) :
    normalizeLineEnds ('\r' :: rest) = '\n' :: normalizeLineEnds rest := by
  rw [normalizeLineEnds]
  exact h

theorem lines_normalizeLineEnds (raw : List Char) :
    lines (normalizeLineEnds raw) = rawTextLines raw := by
  fun_induction rawTextLines raw with
  | case1 => rfl
  | case2 rest ih => rw [normalizeLineEnds, Text.lines_newline, ih]
  | case3 c rest hpair hend ih =>
    have hfeed : normalizeLineEnds (c :: rest) = '\n' :: normalizeLineEnds rest := by
      rcases hend with rfl | rfl
      · exact normalizeLineEnds_cons (by decide) rest
      · exact normalizeLineEnds_return fun more hmore => hpair more rfl hmore
    rw [hfeed, Text.lines_newline, ih]
  | case4 c rest _ hend ih =>
    obtain ⟨hfeed, hreturn⟩ := not_or.mp hend
    obtain ⟨line, more, hlines, hcons⟩ := Text.lines_cons_of_ne hfeed (normalizeLineEnds rest)
    rw [normalizeLineEnds_cons hreturn, hcons, ← ih, hlines, List.modifyHead_cons]

theorem rawTextLines_ne_nil (raw : List Char) : rawTextLines raw ≠ [] := by
  rw [← lines_normalizeLineEnds]
  exact Text.lines_ne_nil _

theorem value_eq (raw : List Char) : value raw = unlines (trimBlank (dedent (rawTextLines raw))) := by
  rw [value, lines_normalizeLineEnds]

theorem return_not_mem_value (raw : List Char) : '\r' ∉ value raw := by
  intro h
  rcases mem_unlines h with hfeed | ⟨l, hl, hc⟩
  · exact absurd hfeed (by decide)
  · obtain ⟨m, hm, n, rfl⟩ := exists_drop_of_mem_dedent (trimBlank_subset hl)
    rcases mem_normalizeLineEnds (mem_of_mem_lines hm (List.mem_of_mem_drop hc)) with hfeed | hne
    · exact absurd hfeed (by decide)
    · exact hne.1 rfl

theorem normalizeLineEnds_withLineEnd {eol : List Char} (heol : eol = ['\r', '\n'] ∨ eol = ['\r'])
    {raw : List Char} (h : '\r' ∉ raw) : normalizeLineEnds (withLineEnd eol raw) = raw := by
  induction raw with
  | nil => rfl
  | cons c raw ih =>
    rw [List.mem_cons, not_or] at h
    have hrest := ih h.2
    rw [withLineEnd, List.flatMap_cons, ← withLineEnd]
    by_cases hc : c = '\n'
    · subst hc
      rw [if_pos rfl]
      rcases heol with rfl | rfl
      · rw [List.cons_append, List.singleton_append, normalizeLineEnds, hrest]
      · have hnone : ∀ more, withLineEnd ['\r'] raw ≠ '\n' :: more := by
          intro more hmore
          have hfeed : '\n' ∈ withLineEnd ['\r'] raw := by simp [hmore]
          obtain ⟨d, -, hd⟩ := List.mem_flatMap.mp hfeed
          split at hd
          · simp at hd
          · next hne => exact hne (List.mem_singleton.mp hd).symm
        rw [List.singleton_append, normalizeLineEnds_return hnone, hrest]
    · rw [if_neg hc, List.singleton_append, normalizeLineEnds_cons (Ne.symm h.1), hrest]

section Moved

variable {indent : List Char}

theorem head?_indentBelow (raw : List Char) : (indentBelow indent raw).head? = raw.head? := by
  fun_cases indentBelow indent raw <;> rfl

theorem rawTextLines_append {xs : List Char} (h : ∀ c ∈ xs, ¬ (c = '\n' ∨ c = '\r'))
    {ys head : List Char} {down : List (List Char)} (hys : rawTextLines ys = head :: down) :
    rawTextLines (xs ++ ys) = (xs ++ head) :: down := by
  induction xs with
  | nil => exact hys
  | cons c xs ih =>
    have hc := h c (List.mem_cons_self ..)
    rw [List.cons_append, rawTextLines, if_neg hc, ih fun d hd => h d (List.mem_cons_of_mem c hd)]
    · rfl
    · exact fun _ hreturn _ => hc (.inr hreturn)

theorem not_lineEnd_of_isIndent {c : Char} (h : isIndent c = true) : ¬ (c = '\n' ∨ c = '\r') := by
  rintro (rfl | rfl) <;> exact absurd h (by decide)

/-- The first line stays as it is, and the others are moved. -/
theorem exists_rawTextLines_indentBelow (h : ∀ c ∈ indent, isIndent c = true) (raw : List Char) :
    ∃ first rest, rawTextLines raw = first :: rest ∧
      rawTextLines (indentBelow indent raw) = first :: rest.map (indent ++ ·) := by
  have hindent : ∀ c ∈ indent, ¬ (c = '\n' ∨ c = '\r') :=
    fun c hc => not_lineEnd_of_isIndent (h c hc)
  fun_induction indentBelow indent raw with
  | case1 => exact ⟨[], [], rfl, rfl⟩
  | case2 rest ih =>
    obtain ⟨first, below, hlines, hmoved⟩ := ih
    refine ⟨[], first :: below, ?_, ?_⟩
    · rw [rawTextLines, hlines]
    · rw [rawTextLines, rawTextLines_append hindent hmoved, List.map_cons]
  | case3 c rest hpair hend ih =>
    obtain ⟨first, below, hlines, hmoved⟩ := ih
    -- no indentation makes a pair of line ends where there was none
    have hpair' : ∀ more, c = '\r' → indent ++ indentBelow indent rest ≠ '\n' :: more := by
      intro more hreturn hmore
      cases indent with
      | nil =>
        have hhead := @head?_indentBelow [] rest
        rw [List.nil_append] at hmore
        rw [hmore, List.head?_cons] at hhead
        obtain ⟨behind, hbehind⟩ := List.head?_eq_some_iff.mp hhead.symm
        exact hpair behind hreturn hbehind
      | cons d indent =>
        obtain ⟨rfl, -⟩ := List.cons.inj hmore
        exact hindent '\n' (List.mem_cons_self ..) (.inl rfl)
    refine ⟨[], first :: below, ?_, ?_⟩
    · rw [rawTextLines, if_pos hend, hlines]
      exact fun more hreturn hmore => hpair more hreturn hmore
    · rw [rawTextLines, if_pos hend, rawTextLines_append hindent hmoved, List.map_cons]
      exact fun more hreturn hmore => hpair' more hreturn hmore
  | case4 c rest _ hend ih =>
    obtain ⟨first, below, hlines, hmoved⟩ := ih
    have hc : ∀ d ∈ [c], ¬ (d = '\n' ∨ d = '\r') := fun d hd => List.mem_singleton.mp hd ▸ hend
    exact ⟨c :: first, below, rawTextLines_append hc hlines, rawTextLines_append hc hmoved⟩

/-- If not all lines are blank, moving them moves their common indentation. -/
theorem commonIndent_map_append (h : ∀ c ∈ indent, isIndent c = true) {ls : List (List Char)}
    {line : List Char} (hmem : line ∈ ls) (hblank : isBlank line = false) :
    commonIndent (ls.map (indent ++ ·)) = indent.length + commonIndent ls := by
  obtain ⟨least, hleast, hnb, hwidth⟩ := exists_indentWidth_eq hmem hblank
  have hmoved : indent ++ least ∈ ls.map (indent ++ ·) := List.mem_map_of_mem hleast
  have hmovednb : isBlank (indent ++ least) = false := by rw [isBlank_append h, hnb]
  obtain ⟨least', hleast', hnb', hwidth'⟩ := exists_indentWidth_eq hmoved hmovednb
  obtain ⟨l, hl, rfl⟩ := List.mem_map.mp hleast'
  have hupper := commonIndent_le hmoved hmovednb
  rw [isBlank_append h] at hnb'
  have hlower := commonIndent_le hl hnb'
  rw [indentWidth_append h] at hupper hwidth'
  omega

theorem trimBlank_of_blank {first : List Char} {rest : List (List Char)}
    (h : ∀ line ∈ rest, isBlank line = true) :
    trimBlank (first :: rest) = if isBlank first then [] else [first] := by
  have hrest : ∀ line ∈ rest.reverse, isBlank line = true := fun line hline =>
    h line (List.mem_reverse.mp hline)
  by_cases hfirst : isBlank first = true
  · have hall : ∀ line ∈ first :: rest, isBlank line = true := by
      intro line hline
      rcases List.mem_cons.mp hline with rfl | hline
      · exact hfirst
      · exact h line hline
    rw [trimBlank, List.dropWhile_eq_nil_iff.mpr hall, if_pos hfirst]
    rfl
  · rw [trimBlank, List.dropWhile_cons_of_neg hfirst, List.reverse_cons,
      List.dropWhile_append_of_pos hrest, List.dropWhile_cons_of_neg hfirst, if_neg hfirst]
    rfl

theorem isBlank_drop {line : List Char} (h : isBlank line = true) (n : Nat) :
    isBlank (line.drop n) = true := by
  rw [isBlank, List.all_eq_true] at h ⊢
  exact fun c hc => h c (List.mem_of_mem_drop hc)

/-- Blank lines below the first one add nothing. -/
theorem trimBlank_dedent_of_blank {first : List Char} {rest : List (List Char)}
    (h : ∀ line ∈ rest, isBlank line = true) :
    trimBlank (dedent (first :: rest)) = if isBlank first then [] else [first] := by
  apply trimBlank_of_blank
  intro line hline
  obtain ⟨l, hl, rfl⟩ := List.mem_map.mp hline
  exact isBlank_drop (h l hl) _

theorem trimBlank_dedent_map_append (h : ∀ c ∈ indent, isIndent c = true) (first : List Char)
    (rest : List (List Char)) :
    trimBlank (dedent (first :: rest.map (indent ++ ·))) = trimBlank (dedent (first :: rest)) := by
  by_cases hblank : ∀ line ∈ rest, isBlank line = true
  · have hmoved : ∀ line ∈ rest.map (indent ++ ·), isBlank line = true := by
      intro line hline
      obtain ⟨l, hl, rfl⟩ := List.mem_map.mp hline
      rw [isBlank_append h, hblank l hl]
    rw [trimBlank_dedent_of_blank hmoved, trimBlank_dedent_of_blank hblank]
  · obtain ⟨line, hmem, hline⟩ : ∃ line ∈ rest, isBlank line = false := by
      simpa using hblank
    have hdrop : ∀ l : List Char, (indent ++ l).drop (indent.length + commonIndent rest) =
        l.drop (commonIndent rest) := fun l => List.drop_length_add_append ..
    rw [dedent, commonIndent_map_append h hmem hline, List.map_map, dedent]
    simp only [Function.comp_def, hdrop]

theorem value_indentBelow (h : ∀ c ∈ indent, isIndent c = true) (raw : List Char) :
    value (indentBelow indent raw) = value raw := by
  obtain ⟨first, rest, hlines, hmoved⟩ := exists_rawTextLines_indentBelow h raw
  rw [value_eq, value_eq, hlines, hmoved, trimBlank_dedent_map_append h]

end Moved

theorem not_isBlank_ends {raw : List Char} (h : value raw ≠ []) :
    isBlank ((lines (value raw)).head (Text.lines_ne_nil _)) = false ∧
      isBlank ((lines (value raw)).getLast (Text.lines_ne_nil _)) = false := by
  have hne := trimBlank_ne_nil h
  have hhead := not_isBlank_head_trimBlank hne
  have hlast := not_isBlank_getLast_trimBlank hne
  rw [← lines_value h] at hhead hlast
  rw [List.head?_eq_some_head (Text.lines_ne_nil _), Option.getD_some] at hhead
  rw [List.getLast?_eq_some_getLast (Text.lines_ne_nil _), Option.getD_some] at hlast
  exact ⟨hhead, hlast⟩

/-- The first line is the only one that is not blank, and it is indented. -/
def StandsAlone (ls : List (List Char)) : Prop :=
  ∃ c line rest, ls = (c :: line) :: rest ∧ isIndent c = true ∧ isBlank (c :: line) = false ∧
    ∀ l ∈ rest, isBlank l = true

/-- A line is flush in the value, unless all but the first of the raw text are blank. -/
theorem any_isFlush_value_iff {raw : List Char} (h : value raw ≠ []) :
    (lines (value raw)).any isFlush = true ↔ ¬ StandsAlone (rawTextLines raw) := by
  have hne := trimBlank_ne_nil h
  rw [lines_value h]
  rw [lines_normalizeLineEnds] at hne ⊢
  obtain ⟨first, rest, hlines⟩ := List.exists_cons_of_ne_nil (rawTextLines_ne_nil raw)
  rw [hlines] at hne ⊢
  by_cases hblank : ∀ line ∈ rest, isBlank line = true
  · rw [trimBlank_dedent_of_blank hblank] at hne ⊢
    have hfirst : isBlank first = false := by
      cases hb : isBlank first with
      | false => rfl
      | true => exact absurd (if_pos hb) hne
    rw [hfirst, if_neg Bool.false_ne_true, List.any_cons, List.any_nil, Bool.or_false]
    cases first with
    | nil => cases hfirst
    | cons c line =>
      constructor
      · rintro hflush ⟨_, _, _, heq, hindent, -, -⟩
        obtain ⟨rfl, rfl⟩ := List.cons.inj (List.cons.inj heq).1
        simp [isFlush, hindent] at hflush
      · intro halone
        cases hindent : isIndent c with
        | false => simp [isFlush, hindent]
        | true => exact absurd ⟨c, line, rest, rfl, hindent, hfirst, hblank⟩ halone
  · obtain ⟨line, hmem, hline⟩ : ∃ line ∈ rest, isBlank line = false := by
      simpa using hblank
    refine iff_of_true (any_isFlush_of_mem first hmem hline) ?_
    rintro ⟨_, _, _, heq, -, -, hall⟩
    obtain ⟨-, rfl⟩ := List.cons.inj heq
    rw [hall line hmem] at hline
    cases hline

/-- No block string holds the value if it has a control character, nor if the first line stands alone
and is indented, and else one does. -/
theorem keeps_value_eq_false_iff (raw : List Char) :
    keeps (value raw) = false ↔
      value raw = [] ∨ (∃ c ∈ value raw, c < ' ' ∧ c ≠ '\t' ∧ c ≠ '\n') ∨
        StandsAlone (rawTextLines raw) := by
  by_cases hnil : value raw = []
  · simp [hnil, keeps]
  · have hne := trimBlank_ne_nil hnil
    have hhead := not_isBlank_head_trimBlank hne
    have hlast := not_isBlank_getLast_trimBlank hne
    rw [← lines_value hnil] at hhead hlast
    have hchars : (∀ l ∈ lines (value raw), ∀ c ∈ l, ' ' ≤ c ∨ c = '\t') ↔
        ¬ ∃ c ∈ value raw, c < ' ' ∧ c ≠ '\t' ∧ c ≠ '\n' := by
      constructor
      · rintro hall ⟨c, hc, hlow, htab, hfeed⟩
        rw [← Text.unlines_lines (value raw)] at hc
        obtain ⟨l, hl, hmem⟩ := (mem_unlines hc).resolve_left hfeed
        exact (hall l hl c hmem).elim (fun hle => absurd hlow (Char.not_lt.mpr hle)) htab
      · intro hnone l hl c hc
        by_cases htab : c = '\t'
        · exact .inr htab
        · by_cases hlow : c < ' '
          · have hfeed : c ≠ '\n' := by
              rintro rfl
              exact Text.newline_not_mem_of_mem_lines hl hc
            exact absurd ⟨c, mem_of_mem_lines hl hc, hlow, htab, hfeed⟩ hnone
          · exact .inl (Char.not_lt.mp hlow)
    rw [← Bool.not_eq_true, keeps_iff, hchars, any_isFlush_value_iff hnil, hhead, hlast]
    simp only [hnil, ne_eq, not_false_eq_true, and_true, true_and, false_or]
    rw [← not_or, Classical.not_not]

/-- The value has no carriage return, and neither its first nor its last line is blank. It is the same
for other line ends, and where the lines below the first one are moved together. If a block string
cannot hold it, then it is empty or has a control character, or it is a first line that stands alone
and is indented. -/
theorem value_laws (raw : List Char) :
    ('\r' ∉ value raw ∧
      (value raw ≠ [] →
        isBlank ((lines (value raw)).head (Text.lines_ne_nil _)) = false ∧
        isBlank ((lines (value raw)).getLast (Text.lines_ne_nil _)) = false)) ∧
    ('\r' ∉ raw →
      value (withLineEnd ['\r', '\n'] raw) = value raw ∧ value (withLineEnd ['\r'] raw) = value raw) ∧
    (∀ indent, (∀ c ∈ indent, isIndent c = true) → value (indentBelow indent raw) = value raw) ∧
    ∀ span, (⟨String.ofList (value raw), true, span⟩ : StringValue).isBlock = false ↔
      value raw = [] ∨ (∃ c ∈ value raw, c < ' ' ∧ c ≠ '\t' ∧ c ≠ '\n') ∨
        StandsAlone (rawTextLines raw) := by
  have hreturn := return_not_mem_value raw
  have hends := @not_isBlank_ends raw
  have hlineEnd : ∀ {eol : List Char}, eol = ['\r', '\n'] ∨ eol = ['\r'] → '\r' ∉ raw →
      value (withLineEnd eol raw) = value raw := by
    intro eol heol hraw
    rw [value, value, normalizeLineEnds_withLineEnd heol hraw, normalizeLineEnds_of_not_mem hraw]
  refine ⟨⟨hreturn, hends⟩, fun hraw => ⟨hlineEnd (.inl rfl) hraw, hlineEnd (.inr rfl) hraw⟩, ?_, ?_⟩
  · intro indent hindent
    exact value_indentBelow hindent raw
  · intro span
    rw [StringValue.isBlock, Bool.true_and, String.toList_ofList]
    exact keeps_value_eq_false_iff raw

example : value "\ta\r \n".toList = "\ta".toList ∧ keeps "\ta".toList = false ∧
    value "a\r\n  \tb\r    c".toList = "a\nb\n c".toList := by
  decide +kernel

end GraphQLText.BlockString
