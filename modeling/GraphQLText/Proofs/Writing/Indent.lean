import GraphQLText.Proofs.Lexing.BlockString
import GraphQLText.Proofs.Writing.Phrase

/-!
# Moved lines

A text is moved to the right by blanks at the beginnings of its lines. The first line stays where it
is, for something else may stand before it, and an empty line stays empty. A layout sinks if its
text at a greater depth is its text moved to the right.
-/

namespace GraphQLText

set_option autoImplicit false

namespace Text

/-- The text with its lines moved to the right, the first one and the empty ones aside: blanks are
put behind each line feed that does not stand before another one. -/
def indentLines (width : Nat) : List Char → List Char
  | [] => []
  | c :: cs =>
    if c = '\n' ∧ cs.head? ≠ some '\n' then
      c :: (List.replicate width ' ' ++ indentLines width cs)
    else
      c :: indentLines width cs

variable {width : Nat}

theorem indentLines_append_of_not_mem {xs : List Char} (h : '\n' ∉ xs) (ys : List Char) :
    indentLines width (xs ++ ys) = xs ++ indentLines width ys := by
  induction xs with
  | nil => rfl
  | cons c xs ih =>
    rw [List.mem_cons, not_or] at h
    rw [List.cons_append, indentLines, if_neg fun hc => h.1 hc.1.symm, ih h.2, List.cons_append]

theorem indentLines_newline {cs : List Char} (h : cs.head? ≠ some '\n') :
    indentLines width ('\n' :: cs) =
      '\n' :: (List.replicate width ' ' ++ indentLines width cs) := by
  rw [indentLines, if_pos ⟨rfl, h⟩]

theorem indentLines_newline_newline (cs : List Char) :
    indentLines width ('\n' :: '\n' :: cs) = '\n' :: indentLines width ('\n' :: cs) := by
  rw [indentLines, if_neg fun h => h.2 rfl]

theorem head?_append_ne {xs ys : List Char} (h : '\n' ∉ xs) (hne : xs ≠ []) :
    (xs ++ ys).head? ≠ some '\n' := by
  obtain ⟨c, xs, rfl⟩ := List.exists_cons_of_ne_nil hne
  rintro ⟨⟩
  exact h (List.mem_cons_self ..)

end Text

open Text (indentLines)

namespace QuotedString

theorem newline_not_mem_escape (c : Char) : '\n' ∉ escape c := by
  have hhex : ∀ n < 16, upperHexDigit n ≠ '\n' := by decide
  unfold escape
  split
  all_goals try simp
  split
  · next hc =>
    have hcode : c.toNat < 32 := hc
    simp only [List.mem_cons, List.not_mem_nil, or_false, not_or]
    exact ⟨by decide, by decide, by decide, by decide, (hhex _ (by omega)).symm,
      (hhex _ (Nat.mod_lt _ (by omega))).symm⟩
  · next hfeed _ _ _ _ _ _ => simpa using Ne.symm hfeed

/-- A quoted string stands on one line, whatever its value. -/
theorem newline_not_mem_write (value : List Char) : '\n' ∉ write value := by
  simp [write, newline_not_mem_escape]

end QuotedString

namespace BlockString

theorem newline_not_mem_escapeMarks {line : List Char} (h : '\n' ∉ line) :
    '\n' ∉ escapeMarks line := by
  fun_induction escapeMarks line <;> simp_all

theorem escapeMarks_ne_nil {line : List Char} (h : line ≠ []) : escapeMarks line ≠ [] := by
  fun_cases escapeMarks line <;> simp_all

theorem newline_not_mem_indentation (level : Nat) : '\n' ∉ indentation level := by
  intro h
  cases mem_indentation h

theorem replicate_append_indentation (k level : Nat) :
    List.replicate (2 * level) ' ' ++ indentation k = indentation (k + level) := by
  rw [indentation, List.replicate_append_replicate, indentation, ← Nat.mul_add, Nat.add_comm]

/-- The lines of a block, behind the line feed that ends the line before them. -/
theorem indentLines_writeLines (level k : Nat) {ls : List (List Char)} (h : ∀ l ∈ ls, '\n' ∉ l)
    (rest : List Char) :
    indentLines (2 * level)
        ('\n' :: (ls.flatMap (writeLine k) ++ (indentation k ++ ['"', '"', '"']) ++ rest)) =
      '\n' :: (ls.flatMap (writeLine (k + level)) ++
        (indentation (k + level) ++ ['"', '"', '"'])) ++
        indentLines (2 * level) rest := by
  induction ls with
  | nil =>
    have hmarks : '\n' ∉ indentation k ++ ['"', '"', '"'] := by
      simp [newline_not_mem_indentation]
    rw [List.flatMap_nil, List.nil_append, Text.indentLines_newline
      (Text.head?_append_ne hmarks (by simp)), Text.indentLines_append_of_not_mem hmarks,
      ← replicate_append_indentation]
    simp
  | cons l ls ih =>
    have hrest := ih fun m hm => h m (List.mem_cons_of_mem l hm)
    rw [List.flatMap_cons, List.flatMap_cons]
    by_cases hl : l = []
    · subst hl
      exact (Text.indentLines_newline_newline _).trans (congrArg ('\n' :: ·) hrest)
    · have hline : '\n' ∉ indentation k ++ escapeMarks l := by
        simp [newline_not_mem_indentation,
          newline_not_mem_escapeMarks (h l (List.mem_cons_self ..))]
      -- behind the first line the other ones stand with the line feed that ends it
      have hcut : ∀ depth more,
          writeLine depth l ++ ls.flatMap (writeLine depth) ++
              (indentation depth ++ ['"', '"', '"']) ++ more =
            (indentation depth ++ escapeMarks l) ++
              '\n' ::
                (ls.flatMap (writeLine depth) ++ (indentation depth ++ ['"', '"', '"']) ++
                  more) := by
        intro depth more
        simp [writeLine, hl]
      rw [hcut,
        Text.indentLines_newline (Text.head?_append_ne hline (by simp [escapeMarks_ne_nil hl])),
        Text.indentLines_append_of_not_mem hline, hrest, List.cons_append, List.cons_append, hcut,
        ← replicate_append_indentation k level]
      simp

theorem indentLines_write (level k : Nat) (text rest : List Char) :
    indentLines (2 * level) (write k text ++ rest) =
      write (k + level) text ++ indentLines (2 * level) rest := by
  have hlines := indentLines_writeLines level k
    (fun l (hl : l ∈ Text.lines text) => Text.newline_not_mem_of_mem_lines hl) rest
  have hmarks : '\n' ∉ ['"', '"', '"'] := by decide
  have hwrite : ∀ depth more, write depth text ++ more = ['"', '"', '"'] ++
      '\n' :: ((Text.lines text).flatMap (writeLine depth) ++
        (indentation depth ++ ['"', '"', '"']) ++ more) := by
    intro depth more
    simp [write]
  rw [hwrite, Text.indentLines_append_of_not_mem hmarks, hlines, hwrite]
  simp

end BlockString

namespace Layout

/-- No word is written over a line end, strings aside. -/
def OneLine (pieces : Layout) : Prop :=
  ∀ t ∈ pieces.tokens, t.isString = true ∨ '\n' ∉ t.text

/-- The second layout is the first one at a depth that is greater by `level`: whatever follows, the
lines of the one are moved to become those of the other. -/
def Sinks (level : Nat) (shallow deep : Layout) : Prop :=
  shallow.OneLine → ∀ rest,
    indentLines (2 * level) (shallow.flatMap Piece.chars ++ rest) =
      deep.flatMap Piece.chars ++ indentLines (2 * level) rest

/-- Whatever follows, the text of the layout does not begin with a line feed. -/
def Opens (pieces : Layout) : Prop :=
  pieces.OneLine → ∀ rest, (pieces.flatMap Piece.chars ++ rest).head? ≠ some '\n'

theorem oneLine_append {xs ys : Layout} : OneLine (xs ++ ys) ↔ OneLine xs ∧ OneLine ys := by
  simp only [OneLine, tokens, List.filterMap_append, List.mem_append, or_imp, forall_and]

variable {level : Nat} {xs xs' ys ys' : Layout}

theorem Sinks.append (hx : Sinks level xs xs') (hy : Sinks level ys ys') :
    Sinks level (xs ++ ys) (xs' ++ ys') := by
  intro h rest
  obtain ⟨hxs, hys⟩ := oneLine_append.mp h
  rw [List.flatMap_append, List.append_assoc, hx hxs, hy hys, List.flatMap_append,
    List.append_assoc]

theorem sinks_nil : Sinks level [] [] :=
  fun _ _ => rfl

/-- What is written on one line is the same at every depth. -/
theorem sinks_of_not_mem (h : OneLine xs → '\n' ∉ xs.flatMap Piece.chars) : Sinks level xs xs :=
  fun hxs rest => Text.indentLines_append_of_not_mem (h hxs) rest

theorem sinks_word (t : Token) : Sinks level [.word t] [.word t] := by
  refine sinks_of_not_mem fun h => ?_
  rw [List.flatMap_singleton]
  rcases h t (List.mem_singleton_self t) with hstring | hline
  · cases t with
    | string v => exact QuotedString.newline_not_mem_write v.toList
    | blockString v => exact QuotedString.newline_not_mem_write v.toList
    | _ => cases hstring
  · exact hline

theorem sinks_space : Sinks level [.space] [.space] :=
  sinks_of_not_mem fun _ => by decide

theorem sinks_comma : Sinks level [.comma] [.comma] :=
  sinks_of_not_mem fun _ => by decide

theorem sinks_block (k : Nat) (value : String) :
    Sinks level [.block value k] [.block value (k + level)] := by
  intro _ rest
  rw [List.flatMap_singleton, List.flatMap_singleton]
  exact BlockString.indentLines_write level k value.toList rest

namespace Sinks

theorem word (h : Sinks level xs xs') (t : Token) : Sinks level (.word t :: xs) (.word t :: xs') :=
  (sinks_word t).append h

theorem space (h : Sinks level xs xs') : Sinks level (.space :: xs) (.space :: xs') :=
  sinks_space.append h

/-- A line end, behind which there are blanks or something that is no line end. -/
theorem line (h : Sinks level xs xs') {k : Nat} (hk : k = 0 → Opens xs) :
    Sinks level (.line k :: xs) (.line (k + level) :: xs') := by
  intro hline rest
  have hxs : OneLine xs := hline
  have hblanks := BlockString.newline_not_mem_indentation k
  have hhead :
      (BlockString.indentation k ++ (xs.flatMap Piece.chars ++ rest)).head? ≠ some '\n' := by
    cases k with
    | zero => exact hk rfl hxs rest
    | succ k => exact Text.head?_append_ne hblanks (by simp [BlockString.indentation])
  simp only [List.flatMap_cons, Piece.chars, List.cons_append, List.append_assoc]
  rw [Text.indentLines_newline hhead, Text.indentLines_append_of_not_mem hblanks, h hxs,
    ← List.append_assoc, BlockString.replicate_append_indentation]

section Items

variable {α : Type} {write write' : α → Layout} {as : List α}
  (h : ∀ a ∈ as, Sinks level (write a) (write' a))
include h

theorem separated {gap : Layout} (hgap : Sinks level gap gap) :
    Sinks level (separated gap (as.map write)) (Layout.separated gap (as.map write')) := by
  induction as with
  | nil => exact sinks_nil
  | cons a as ih =>
    have ha := h a (List.mem_cons_self ..)
    have hrest := ih fun b hb => h b (List.mem_cons_of_mem a hb)
    cases as with
    | nil =>
      simp only [List.map_cons, List.map_nil, separated_singleton]
      exact ha
    | cons b as =>
      simp only [List.map_cons, separated_cons_cons] at hrest ⊢
      exact ha.append (hgap.append hrest)

theorem marked (separator : Punctuator) :
    Sinks level (Layout.separated [.space, .mark separator, .space] (as.map write))
      (Layout.separated [.space, .mark separator, .space] (as.map write')) :=
  separated h (sinks_space.word _).space

theorem enclosed (opening close : Punctuator) :
    Sinks level (enclosed opening close (as.map write))
      (Layout.enclosed opening close (as.map write')) :=
  ((separated h sinks_comma).append (sinks_word _)).word _

theorem flatMap : Sinks level (as.flatMap write) (as.flatMap write') := by
  induction as with
  | nil => exact sinks_nil
  | cons a as ih =>
    exact (h a (List.mem_cons_self ..)).append (ih fun b hb => h b (List.mem_cons_of_mem a hb))

theorem stacked (opening close : Punctuator) (k : Nat) :
    Sinks level (stacked opening close k (as.map write))
      (Layout.stacked opening close (k + level) (as.map write')) := by
  have hclose : Sinks level [.line k, .mark close] [.line (k + level), .mark close] := by
    refine (sinks_word _).line fun _ _ rest => ?_
    cases close <;> simp [Piece.chars, Token.text, Punctuator.text]
  have hlines := flatMap fun a ha => (h a ha).line (k := k + 1) (by simp)
  rw [Nat.add_right_comm k 1 level] at hlines
  simp only [Layout.stacked, List.flatMap_map]
  exact (hlines.append hclose).word _

theorem braced (k : Nat) :
    Sinks level (braced k (as.map write)) (Layout.braced (k + level) (as.map write')) := by
  simp only [Layout.braced, List.isEmpty_map]
  split
  · exact sinks_nil
  · exact stacked h _ _ k

theorem body (k : Nat) :
    Sinks level (body k (as.map write)) (Layout.body (k + level) (as.map write')) := by
  simp only [Layout.body, List.isEmpty_map]
  split
  · exact sinks_nil
  · exact (braced h k).space

end Items

end Sinks

theorem opens_mark (p : Punctuator) (pieces : Layout) : Opens (.mark p :: pieces) := by
  intro _ rest
  cases p <;> simp [Piece.chars, Token.text, Punctuator.text]

theorem opens_space (pieces : Layout) : Opens (.space :: pieces) := by
  intro _ rest
  simp [Piece.chars]

theorem Opens.name (h : Opens xs) (text : String) : Opens (.name text :: xs) := by
  intro hline rest
  obtain ⟨hname, hxs⟩ := (@oneLine_append [.name text] _).mp hline
  rw [List.flatMap_cons, List.append_assoc]
  by_cases htext : (Piece.name text).chars = []
  · rw [htext]
    exact h hxs rest
  · refine Text.head?_append_ne ?_ htext
    simpa [Token.isString, Piece.chars] using hname (.name text) (List.mem_singleton_self _)

theorem opens_name {text : String} (h : text.toList ≠ []) (pieces : Layout) :
    Opens (.name text :: pieces) := by
  intro hline rest
  obtain ⟨hname, -⟩ := (@oneLine_append [.name text] _).mp hline
  rw [List.flatMap_cons, List.append_assoc]
  refine Text.head?_append_ne ?_ h
  simpa [Token.isString, Piece.chars] using hname (.name text) (List.mem_singleton_self _)

end Layout

end GraphQLText
