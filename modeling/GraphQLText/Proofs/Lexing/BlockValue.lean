import GraphQLText.Proofs.Lexing.Written
import GraphQLText.Value.Basic

/-!
# The texts that block strings can hold

Whatever a block string is written like, its value has no control character and neither begins nor
ends with a blank line. If nothing stands behind the opening mark, the common indentation is that of
some line, which is flush in the value. So `keeps` is no stricter than it has to be: a text that is
read back from the block that is written for it is one that `keeps` admits.
-/

namespace GraphQLText.BlockString

set_option autoImplicit false

open Text (lines unlines)

theorem not_isForbidden_of_read {cs raw rest : List Char} (h : read cs = .ok (raw, rest)) :
    ∀ c ∈ raw, isForbidden c = false := by
  fun_induction read cs generalizing raw with
  | case1 => simp at h
  | case2 tail ih =>
    obtain ⟨more, hr, rfl⟩ := read_eq_ok_of_map ['"', '"', '"'] h
    intro c hc
    rcases List.mem_append.mp hc with hmark | hc
    · have hquote : c = '"' := by simpa using hmark
      rw [hquote]
      decide
    · exact ih hr c hc
  | case3 tail =>
    obtain ⟨rfl, rfl⟩ := Prod.mk.inj (Except.ok.inj h)
    simp
  | case4 => simp at h
  | case5 c tail _ _ hc ih =>
    obtain ⟨more, hr, rfl⟩ := read_eq_ok_of_map [c] h
    intro d hd
    rcases List.mem_cons.mp hd with rfl | hd
    · simpa using hc
    · exact ih hr d hd

theorem read_newline {cs raw rest : List Char} (h : read ('\n' :: cs) = .ok (raw, rest)) :
    ∃ more, raw = '\n' :: more := by
  rw [read_cons (by simp) (by simp) (by decide)] at h
  obtain ⟨more, -, rfl⟩ := read_eq_ok_of_map ['\n'] h
  exact ⟨more, rfl⟩

theorem mem_normalizeLineEnds {cs : List Char} {c : Char} (h : c ∈ normalizeLineEnds cs) :
    c = '\n' ∨ c ≠ '\r' ∧ c ∈ cs := by
  fun_induction normalizeLineEnds cs with
  | case1 => simp at h
  | case2 rest ih =>
    rcases List.mem_cons.mp h with hc | hc
    · exact .inl hc
    · exact (ih hc).imp_right fun hrest => ⟨hrest.1, by simp [hrest.2]⟩
  | case3 rest _ ih =>
    rcases List.mem_cons.mp h with hc | hc
    · exact .inl hc
    · exact (ih hc).imp_right fun hrest => ⟨hrest.1, by simp [hrest.2]⟩
  | case4 d rest _ hne ih =>
    rcases List.mem_cons.mp h with rfl | hc
    · exact .inr ⟨hne, List.mem_cons_self ..⟩
    · exact (ih hc).imp_right fun hrest => ⟨hrest.1, by simp [hrest.2]⟩

theorem mem_unlines_of_mem {ls : List (List Char)} {l : List Char} (hl : l ∈ ls) {c : Char}
    (hc : c ∈ l) : c ∈ unlines ls := by
  induction ls with
  | nil => simp at hl
  | cons m ls ih =>
    cases ls with
    | nil =>
      obtain rfl := List.mem_singleton.mp hl
      rwa [Text.unlines_singleton]
    | cons n ls =>
      rw [Text.unlines_cons_cons, List.mem_append, List.mem_cons]
      rcases List.mem_cons.mp hl with rfl | hl
      · exact .inl hc
      · exact .inr (.inr (ih hl))

theorem mem_of_mem_lines {cs l : List Char} (hl : l ∈ lines cs) {c : Char} (hc : c ∈ l) : c ∈ cs := by
  rw [← Text.unlines_lines cs]
  exact mem_unlines_of_mem hl hc

section Trim

variable {ls : List (List Char)}

theorem trimBlank_subset : trimBlank ls ⊆ ls := by
  intro l hl
  rw [trimBlank, List.mem_reverse] at hl
  have hback := (List.dropWhile_suffix _).subset hl
  exact (List.dropWhile_suffix _).subset (List.mem_reverse.mp hback)

theorem mem_dropWhile_of_neg {α : Type} {p : α → Bool} {a : α} {as : List α} (h : a ∈ as)
    (hp : p a = false) : a ∈ as.dropWhile p := by
  rw [← List.takeWhile_append_dropWhile (p := p) (l := as)] at h
  rcases List.mem_append.mp h with hbefore | hbehind
  · have hall := List.all_eq_true.mp (List.all_takeWhile (p := p) (l := as)) a hbefore
    rw [hp] at hall
    cases hall
  · exact hbehind

theorem mem_trimBlank {l : List Char} (h : l ∈ ls) (hl : isBlank l = false) : l ∈ trimBlank ls := by
  rw [trimBlank, List.mem_reverse]
  apply mem_dropWhile_of_neg _ hl
  rw [List.mem_reverse]
  exact mem_dropWhile_of_neg h hl

theorem not_isBlank_getLast_trimBlank (h : trimBlank ls ≠ []) :
    isBlank ((trimBlank ls).getLast?.getD []) = false := by
  rw [trimBlank, List.getLast?_reverse]
  rw [trimBlank, ne_eq, List.reverse_eq_nil_iff] at h
  have hhead := List.head?_dropWhile_not isBlank (ls.dropWhile isBlank).reverse
  obtain ⟨l, rest, heq⟩ := List.exists_cons_of_ne_nil h
  rw [heq] at hhead ⊢
  simpa using hhead

theorem not_isBlank_head_trimBlank (h : trimBlank ls ≠ []) :
    isBlank ((trimBlank ls).head?.getD []) = false := by
  have hprefix : trimBlank ls <+: ls.dropWhile isBlank := by
    have hsuffix := List.dropWhile_suffix (l := (ls.dropWhile isBlank).reverse) isBlank
    have hreversed := List.reverse_prefix.mpr hsuffix
    rwa [List.reverse_reverse] at hreversed
  obtain ⟨l, rest, heq⟩ := List.exists_cons_of_ne_nil h
  obtain ⟨more, hmore⟩ := hprefix
  have hhead := List.head?_dropWhile_not isBlank ls
  rw [← hmore, heq] at hhead
  rw [heq]
  simpa using hhead

end Trim

theorem drop_indentWidth (line : List Char) :
    line.drop (indentWidth line) = line.dropWhile isIndent := by
  have hdrop : (line.takeWhile isIndent ++ line.dropWhile isIndent).drop (indentWidth line) =
      line.dropWhile isIndent := List.drop_left
  rwa [List.takeWhile_append_dropWhile] at hdrop

/-- A line that is not blank is flush without its own indentation. -/
theorem isFlush_drop_indentWidth {line : List Char} (h : isBlank line = false) :
    isFlush (line.drop (indentWidth line)) = true := by
  rw [drop_indentWidth]
  cases hd : line.dropWhile isIndent with
  | nil =>
    have hall := List.all_takeWhile (p := isIndent) (l := line)
    have hline := List.takeWhile_append_dropWhile (p := isIndent) (l := line)
    rw [hd, List.append_nil] at hline
    rw [hline] at hall
    rw [isBlank, hall] at h
    cases h
  | cons c rest =>
    have hhead := List.head?_dropWhile_not isIndent line
    rw [hd] at hhead
    simpa [isFlush] using hhead

theorem not_isBlank_of_drop {line : List Char} {n : Nat} (h : isBlank (line.drop n) = false) :
    isBlank line = false := by
  rw [← List.take_append_drop n line, isBlank, List.all_append, ← isBlank, ← isBlank, h,
    Bool.and_false]

theorem exists_drop_of_mem_dedent {ls : List (List Char)} {l : List Char} (h : l ∈ dedent ls) :
    ∃ m ∈ ls, ∃ n, l = m.drop n := by
  cases ls with
  | nil => cases h
  | cons first rest =>
    rcases List.mem_cons.mp h with rfl | h
    · exact ⟨l, List.mem_cons_self .., 0, rfl⟩
    · obtain ⟨m, hm, rfl⟩ := List.mem_map.mp h
      exact ⟨m, List.mem_cons_of_mem first hm, _, rfl⟩

/-- The lines of a value are what is left of those of the raw text. -/
theorem lines_value {raw : List Char} (h : value raw ≠ []) :
    lines (value raw) = trimBlank (dedent (lines (normalizeLineEnds raw))) := by
  rw [value] at h ⊢
  apply Text.lines_unlines
  · intro hnil
    exact h (by rw [hnil]; rfl)
  · intro l hl hmem
    obtain ⟨m, hm, n, rfl⟩ := exists_drop_of_mem_dedent (trimBlank_subset hl)
    exact Text.newline_not_mem_of_mem_lines hm (List.mem_of_mem_drop hmem)

theorem trimBlank_ne_nil {raw : List Char} (h : value raw ≠ []) :
    trimBlank (dedent (lines (normalizeLineEnds raw))) ≠ [] := by
  rw [← lines_value h]
  exact Text.lines_ne_nil _

theorem lines_normalizeLineEnds_newline (raw : List Char) :
    lines (normalizeLineEnds ('\n' :: raw)) = [] :: lines (normalizeLineEnds raw) := by
  rw [normalizeLineEnds]
  · exact Text.lines_newline _
  · simp
  · simp

/-- The lines below an opening mark keep nothing but printable characters and tabs. -/
theorem printable_of_mem_dedent {raw l : List Char} (hraw : ∀ c ∈ raw, isForbidden c = false)
    (hl : l ∈ dedent ([] :: lines (normalizeLineEnds raw))) {c : Char} (hc : c ∈ l) :
    ' ' ≤ c ∨ c = '\t' := by
  rcases List.mem_cons.mp hl with rfl | hl
  · simp at hc
  · obtain ⟨m, hm, rfl⟩ := List.mem_map.mp hl
    have hline := List.mem_of_mem_drop hc
    have hnewline : c ≠ '\n' := by
      rintro rfl
      exact Text.newline_not_mem_of_mem_lines hm hline
    rcases mem_normalizeLineEnds (mem_of_mem_lines hm hline) with hc | ⟨hreturn, hmem⟩
    · exact absurd hc hnewline
    · have hallowed := hraw c hmem
      simp only [isForbidden, Bool.and_eq_false_iff, decide_eq_false_iff_not, Char.not_lt,
        bne_eq_false_iff_eq] at hallowed
      rcases hallowed with (hallowed | hc) | hc
      · exact hallowed
      · exact absurd hc hnewline
      · exact absurd hc hreturn

/-- If a line below the first one is not blank, there is one with just the common indentation. -/
theorem any_isFlush_of_mem (first : List Char) {rest : List (List Char)} {line : List Char}
    (hmem : line ∈ rest) (hblank : isBlank line = false) :
    (trimBlank (dedent (first :: rest))).any isFlush = true := by
  -- the line that sets the common indentation need not be the first one that is left
  obtain ⟨n, hn, hnb, hwidth⟩ := exists_indentWidth_eq hmem hblank
  have hflush := isFlush_drop_indentWidth hnb
  rw [hwidth] at hflush
  refine List.any_eq_true.mpr ⟨_, ?_, hflush⟩
  apply mem_trimBlank _ (not_isBlank_of_isFlush hflush)
  exact List.mem_cons_of_mem _ (List.mem_map_of_mem hn)

/-- If a line is left, there is one that is not blank, and so one with just the common indentation. -/
theorem any_isFlush_trimBlank {ls : List (List Char)} (h : trimBlank (dedent ([] :: ls)) ≠ []) :
    (trimBlank (dedent ([] :: ls))).any isFlush = true := by
  have hblank := not_isBlank_head_trimBlank h
  obtain ⟨l, rest, heq⟩ := List.exists_cons_of_ne_nil h
  rw [heq, List.head?_cons, Option.getD_some] at hblank
  have hl : l ∈ trimBlank (dedent ([] :: ls)) := by simp [heq]
  rcases List.mem_cons.mp (trimBlank_subset hl) with rfl | hl
  · cases hblank
  · obtain ⟨m, hm, rfl⟩ := List.mem_map.mp hl
    exact any_isFlush_of_mem [] hm (not_isBlank_of_drop hblank)

/-- Whatever stands below an opening mark, a value that is not empty is one that a block string can
hold. -/
theorem keeps_value_newline {raw : List Char} (hraw : ∀ c ∈ raw, isForbidden c = false)
    (h : value ('\n' :: raw) ≠ []) : keeps (value ('\n' :: raw)) = true := by
  have hlines := lines_value h
  have hne := trimBlank_ne_nil h
  rw [lines_normalizeLineEnds_newline] at hlines hne
  rw [keeps_iff, hlines]
  refine ⟨h, ?_, any_isFlush_trimBlank hne, not_isBlank_head_trimBlank hne,
    not_isBlank_getLast_trimBlank hne⟩
  intro l hl c hc
  exact printable_of_mem_dedent hraw (trimBlank_subset hl) hc

end GraphQLText.BlockString

namespace GraphQLText

open BlockString

/-- The text is the first token of the block that is written for it only if `keeps` admits it. -/
theorem Scan.keeps_of_token? {level : Nat} {text : List Char} (hne : text ≠ []) {rest : List Char}
    (h : token? '"' ((write level text).tail) = .token (.blockString (String.ofList text)) rest) :
    keeps text = true := by
  have hlead : Lead.ofChar '"' = .mark := by decide
  simp only [token?, hlead, write, List.cons_append, List.nil_append, List.tail_cons, string] at h
  split at h
  · next raw _ hread =>
    simp only [token.injEq, Token.blockString.injEq, String.ofList_inj] at h
    obtain ⟨more, rfl⟩ := read_newline hread
    have hraw := not_isForbidden_of_read hread
    obtain ⟨rfl, -⟩ := h
    exact keeps_value_newline (fun c hc => hraw c (List.mem_cons_of_mem _ hc)) hne
  · cases h

/-- A string that was a block is written as one exactly if the block that is written for its text, at
whatever depth, is a single token with that text as its value. -/
theorem StringValue.isBlock_iff_lexes {s : StringValue} (hblock : s.block = true)
    (hne : s.value ≠ "") (level : Nat) :
    s.isBlock = true ↔
      (TokenStream.ofText (String.ofList (write level s.value.toList))).kinds =
          [.blockString s.value] ∧
        (TokenStream.ofText (String.ofList (write level s.value.toList))).isComplete = true := by
  rw [StringValue.isBlock, hblock, Bool.true_and]
  constructor
  · intro hkeeps
    have hclean : Layout.Clean [.block s.value level] := .cons hkeeps (.inr Layout.breaks_nil) .nil
    have hstream := hclean.ofText (by simp [Layout.tokens, Piece.token?])
    simpa [Layout.render, Layout.tokens, Piece.chars, Piece.token?] using hstream
  · rintro ⟨hkinds, -⟩
    have hskip : Ignored.skip false (write level s.value.toList) =
        '"' :: (write level s.value.toList).tail := Lead.skip_of_ofChar (by decide) _
    rw [TokenStream.ofText, String.toList_ofList] at hkinds
    cases hs : Scan.token? '"' (write level s.value.toList).tail with
    | broken f text lexeme =>
      obtain ⟨start, heq⟩ := TokenStream.ofChars_of_broken 0 hskip hs
      rw [heq] at hkinds
      cases hkinds
    | token t rest =>
      obtain ⟨text, start, next, heq⟩ := TokenStream.ofChars_of_token 0 hskip hs
      rw [heq, TokenStream.kinds_cons] at hkinds
      obtain rfl := (List.cons.inj hkinds).1
      have hlist : s.value.toList ≠ [] := fun hnil => hne (String.toList_eq_nil_iff.mp hnil)
      exact Scan.keeps_of_token? hlist (by rwa [String.ofList_toList])

/-- Marks, a backslash before one, and a line that a tab indents. -/
theorem StringValue.isBlock_iff_lexes_marks :
    (⟨"\\\"\"\"\n\té\n \n\"", true, Span.zero⟩ : StringValue).block = true ∧
      "\\\"\"\"\n\té\n \n\"" ≠ "" ∧
      ((⟨"\\\"\"\"\n\té\n \n\"", true, Span.zero⟩ : StringValue).isBlock = true ↔
        (TokenStream.ofText (String.ofList (write 2 "\\\"\"\"\n\té\n \n\"".toList))).kinds =
            [.blockString "\\\"\"\"\n\té\n \n\""] ∧
          (TokenStream.ofText
            (String.ofList (write 2 "\\\"\"\"\n\té\n \n\"".toList))).isComplete = true) :=
  ⟨rfl, by decide, isBlock_iff_lexes rfl (by decide) 2⟩

end GraphQLText
