import GraphQLText.Layout.Piece
import GraphQLText.Proofs.Lexing.Stream

/-!
# Reading back written text

A layout is clean when each of its pieces can be written and no name, number or string of it runs
into the piece behind it. The text of a clean layout is made of exactly the tokens of the layout.
-/

namespace GraphQLText

set_option autoImplicit false

namespace Scan

/-- Neither a name nor a number nor a string goes on with the text. -/
def EndsBefore (rest : List Char) : Prop :=
  ∀ c ∈ rest.head?, Number.isTail c = false ∧ c ≠ '"'

theorem isNameChar_of_isTail {c : Char} (h : Number.isTail c = false) : isNameChar c = false := by
  simp only [Number.isTail, Bool.or_eq_false_iff] at h
  simp only [isNameChar, Bool.or_eq_false_iff]
  exact ⟨h.1.2, h.2⟩

theorem mayEndBefore_of_endsBefore {rest : List Char} (h : EndsBefore rest) :
    Number.mayEndBefore rest = true := by
  cases rest with
  | nil => rfl
  | cons c rest => simp [Number.mayEndBefore, (h c rfl).1]

theorem token?_name {c : Char} {cs rest : List Char} (hc : isNameStart c = true)
    (hcs : cs.all isNameChar = true) (hr : EndsBefore rest) :
    token? c (cs ++ rest) = .token (.name (String.ofList (c :: cs))) rest := by
  have hstop : ∀ d ∈ rest.head?, isNameChar d = false :=
    fun d hd => isNameChar_of_isTail (hr d hd).1
  have hall : ∀ d ∈ cs, isNameChar d = true := List.all_eq_true.mp hcs
  simp only [token?, Lead.ofChar_of_isNameStart hc, name, Text.takeWhile_append_stop hall hstop,
    Text.dropWhile_append_stop hall hstop]

theorem number_lead {c : Char} {cs : List Char} (h : Number.IsWhole (c :: cs)) :
    Lead.ofChar c = .number := by
  cases h with
  | negative h => rfl
  | plain h =>
    cases h with
    | zero => rfl
    | digits hd _ _ => exact Lead.ofChar_of_isDigit hd

theorem isWhole_ne_nil {w : List Char} (h : Number.IsWhole w) : w ≠ [] := by
  cases h with
  | negative h => simp
  | plain h => cases h <;> simp

/-- A number is read whole, with the kind that its form tells. -/
theorem token?_number {w f e rest : List Char} (hw : Number.IsWhole w)
    (hf : f = [] ∨ Number.IsFraction f) (he : e = [] ∨ Number.IsExponent e)
    (hr : EndsBefore rest) :
    ∃ c tail, w ++ f ++ e ++ rest = c :: tail ∧ Lead.ofChar c = .number ∧
      token? c tail = .token
        (if !(f.isEmpty && e.isEmpty) then .float (String.ofList (w ++ f ++ e))
          else .int (String.ofList (w ++ f ++ e))) rest := by
  have hlong := Number.longest?_of_form hw hf he (mayEndBefore_of_endsBefore hr)
  cases w with
  | nil => exact absurd rfl (isWhole_ne_nil hw)
  | cons c w =>
    have hlead := number_lead hw
    refine ⟨c, w ++ f ++ e ++ rest, rfl, hlead, ?_⟩
    simp only [token?, hlead, number]
    rw [← List.cons_append, ← List.cons_append, ← List.cons_append, hlong]
    simp only [mayEndBefore_of_endsBefore hr, if_true]

theorem token?_string (value : List Char) {rest : List Char} (hr : EndsBefore rest) :
    token? '"' (value.flatMap QuotedString.escape ++ '"' :: rest) =
      .token (.string (String.ofList value)) rest := by
  have hread := QuotedString.read_escapes value rest
  have hlead : Lead.ofChar '"' = .mark := by decide
  have hbody : ∀ body, value.flatMap QuotedString.escape ++ '"' :: rest ≠ '"' :: '"' :: body := by
    intro body heq
    cases value with
    | nil =>
      simp only [List.flatMap_nil, List.nil_append, List.cons.injEq, true_and] at heq
      rw [heq] at hr
      exact (hr '"' rfl).2 rfl
    | cons c value =>
      have hc := QuotedString.head?_escape c
      rw [List.flatMap_cons, List.append_assoc] at heq
      cases hesc : QuotedString.escape c with
      | nil =>
        have hne : QuotedString.escape c ≠ [] := by
          unfold QuotedString.escape
          repeat' split
          all_goals simp
        exact hne hesc
      | cons d more =>
        rw [hesc] at hc heq
        simp only [List.cons_append, List.cons.injEq] at heq
        rw [heq.1] at hc
        exact hc rfl
  rw [token?, hlead]
  simp only
  rw [string]
  · simp only [hread]
  · exact fun body heq => hbody body heq

theorem token?_blockString (level : Nat) {text : List Char} (h : BlockString.keeps text = true)
    (rest : List Char) :
    ∃ tail, BlockString.write level text ++ rest = '"' :: tail ∧
      token? '"' tail = .token (.blockString (String.ofList text)) rest := by
  have hchars : ∀ l ∈ Text.lines text, ∀ c ∈ l, BlockString.isForbidden c = false :=
    fun l hl c hc =>
      BlockString.isForbidden_of_printable (((BlockString.keeps_iff text).mp h).2.1 l hl c hc)
  have hread := BlockString.read_write level rest hchars
  have hlead : Lead.ofChar '"' = .mark := by decide
  refine ⟨'"' :: '"' :: ('\n' :: (Text.lines text).flatMap (BlockString.writeLine level) ++
    BlockString.indentation level ++ '"' :: '"' :: '"' :: rest), ?_, ?_⟩
  · simp [BlockString.write]
  · rw [token?, hlead]
    simp only [string, hread, BlockString.value_rawLines level h]

end Scan

namespace Token

/-- A token that is written on one line is read back, where no other token runs into it. -/
theorem scan_text {t : Token} (ht : t.WellFormed) (hb : ∀ v, t ≠ .blockString v)
    {rest : List Char} (hr : (∃ p, t = .punctuator p) ∨ Scan.EndsBefore rest) :
    ∃ c tail, t.text ++ rest = c :: tail ∧ Lead.ofChar c ≠ .other ∧
      Scan.token? c tail = .token t rest := by
  rcases hr with ⟨p, rfl⟩ | hr
  · cases p <;> exact ⟨_, _, rfl, by decide, rfl⟩
  · cases t with
    | punctuator p => cases p <;> exact ⟨_, _, rfl, by decide, rfl⟩
    | name s =>
      simp only [WellFormed, isName] at ht
      cases hs : s.toList with
      | nil => simp [hs] at ht
      | cons c cs =>
        simp only [hs, Bool.and_eq_true] at ht
        refine ⟨c, cs ++ rest, by simp [text, hs], by simp [Lead.ofChar_of_isNameStart ht.1], ?_⟩
        rw [Scan.token?_name ht.1 ht.2 hr, ← hs, String.ofList_toList]
    | int s =>
      obtain ⟨c, tail, heq, hlead, htok⟩ := Scan.token?_number ht (.inl rfl) (.inl rfl) hr
      refine ⟨c, tail, by simpa [text] using heq, by simp [hlead], ?_⟩
      rw [htok]
      simp
    | float s =>
      simp only [WellFormed] at ht
      generalize hs : s.toList = cs at ht
      cases ht with
      | @intro w f e hw hf he hne =>
        obtain ⟨c, tail, heq, hlead, htok⟩ := Scan.token?_number hw hf he hr
        refine ⟨c, tail, by rw [text, hs]; exact heq, by simp [hlead], ?_⟩
        have hflag : (!(f.isEmpty && e.isEmpty)) = true := by
          rcases hne with hne | hne <;> simp [hne]
        rw [htok, hflag, if_pos rfl, ← hs, String.ofList_toList]
    | string v =>
      refine ⟨'"', v.toList.flatMap QuotedString.escape ++ '"' :: rest,
        by simp [text, QuotedString.write], by decide, ?_⟩
      rw [Scan.token?_string v.toList hr, String.ofList_toList]
    | blockString v => exact absurd rfl (hb v)

end Token

namespace Piece

/-- Whether any piece may stand directly behind the piece. -/
def isSoft : Piece → Bool
  | word (.punctuator _) | space | comma | line _ | paragraph => true
  | _ => false

def isBreak : Piece → Bool
  | word (.punctuator .ellipsis) => false
  | word (.punctuator _) | space | comma | line _ | paragraph => true
  | _ => false

/-- A block string is written as a block, and only if that keeps its value. -/
def Writable : Piece → Prop
  | word (.blockString _) => False
  | block value _ => BlockString.keeps value.toList = true
  | _ => True

theorem head?_chars_of_isBreak {p : Piece} (h : p.isBreak = true) :
    ∃ c cs, p.chars = c :: cs ∧ Number.isTail c = false ∧ c ≠ '"' := by
  match p with
  | word (.punctuator q) =>
    cases q <;> first | exact ⟨_, _, rfl, by decide, by decide⟩ | exact absurd h (by decide)
  | space | comma | line _ | paragraph => exact ⟨_, _, rfl, by decide, by decide⟩

theorem skip_gap {p : Piece} (h : p.token? = none) (rest : List Char) :
    Ignored.skip false (p.chars ++ rest) = Ignored.skip false rest := by
  have hblanks : ∀ gap : List Char, (∀ c ∈ gap, Ignored.isIgnored c = true) →
      Ignored.skip false (gap ++ rest) = Ignored.skip false rest := by
    intro gap hgap
    induction gap with
    | nil => rfl
    | cons c gap ih =>
      rw [List.cons_append, Ignored.skip, if_pos (hgap c (by simp))]
      exact ih fun d hd => hgap d (by simp [hd])
  apply hblanks
  intro c hc
  cases p with
  | word t => simp [token?] at h
  | block v l => simp [token?] at h
  | space => simp only [chars, List.mem_singleton] at hc; rw [hc]; decide
  | comma =>
    simp only [chars, List.mem_cons, List.not_mem_nil, or_false] at hc
    rcases hc with rfl | rfl <;> decide
  | line l =>
    simp only [chars, List.mem_cons] at hc
    rcases hc with rfl | hc
    · decide
    · rw [BlockString.mem_indentation hc]
      decide
  | paragraph =>
    simp only [chars, List.mem_cons, List.not_mem_nil, or_false] at hc
    rcases hc with rfl | rfl <;> decide

end Piece

namespace Layout

def Breaks (pieces : Layout) : Prop :=
  ∀ p ∈ pieces.head?, p.isBreak = true

/-- Every piece can be written, and none runs into the piece behind it. -/
inductive Clean : Layout → Prop
  | nil : Clean []
  | cons {p : Piece} {pieces : Layout} :
      p.Writable → p.isSoft = true ∨ Breaks pieces → Clean pieces → Clean (p :: pieces)

theorem endsBefore_of_breaks {pieces : Layout} (h : Breaks pieces) :
    Scan.EndsBefore (pieces.flatMap Piece.chars) := by
  cases pieces with
  | nil => intro c hc; simp at hc
  | cons p pieces =>
    obtain ⟨c, cs, hchars, hc⟩ := Piece.head?_chars_of_isBreak (h p rfl)
    intro d hd
    rw [List.flatMap_cons, hchars, List.cons_append, List.head?_cons, Option.mem_some_iff] at hd
    rw [← hd]
    exact hc

/-- The text of a clean layout is made of the tokens of the layout. -/
theorem Clean.lexes {pieces : Layout} (h : Clean pieces)
    (ht : ∀ t ∈ pieces.tokens, t.WellFormed) :
    Lexes (pieces.flatMap Piece.chars) pieces.tokens := by
  induction h with
  | nil => exact .done rfl
  | @cons p pieces hp hnext _ ih =>
    have htail : ∀ t ∈ pieces.tokens, t.WellFormed := by
      intro t hmem
      apply ht
      cases htok : p.token? with
      | none => rwa [tokens, List.filterMap_cons_none htok]
      | some u =>
        rw [tokens, List.filterMap_cons_some htok]
        exact List.mem_cons_of_mem _ hmem
    have hrest := ih htail
    rw [List.flatMap_cons]
    cases p with
    | word t =>
      have hb : ∀ v, t ≠ .blockString v := by rintro v rfl; exact hp
      -- a punctuator ends by itself, any other word where the next piece breaks it off
      have hsoft : (∃ q, t = .punctuator q) ∨ Scan.EndsBefore (pieces.flatMap Piece.chars) := by
        rcases hnext with hs | hs
        · cases t with
          | punctuator q => exact .inl ⟨q, rfl⟩
          | _ => exact absurd hs (by simp [Piece.isSoft])
        · exact .inr (endsBefore_of_breaks hs)
      obtain ⟨c, tail, heq, hlead, hscan⟩ := Token.scan_text (ht t (by simp [tokens, Piece.token?]))
        hb hsoft
      refine .token ?_ hscan hrest
      rw [Piece.chars, heq]
      exact Lead.skip_of_ofChar hlead tail
    | block v level =>
      obtain ⟨tail, heq, hscan⟩ := Scan.token?_blockString level hp (pieces.flatMap Piece.chars)
      rw [String.ofList_toList] at hscan
      refine .token ?_ hscan hrest
      rw [Piece.chars, heq]
      exact Lead.skip_of_ofChar (by decide) tail
    | space => exact hrest.of_skip_eq (Piece.skip_gap rfl _)
    | comma => exact hrest.of_skip_eq (Piece.skip_gap rfl _)
    | line level => exact hrest.of_skip_eq (Piece.skip_gap rfl _)
    | paragraph => exact hrest.of_skip_eq (Piece.skip_gap rfl _)

/-- The stream of a clean layout is complete and holds its tokens. -/
theorem Clean.ofText {pieces : Layout} (h : Clean pieces)
    (ht : ∀ t ∈ pieces.tokens, t.WellFormed) :
    (TokenStream.ofText pieces.render).kinds = pieces.tokens ∧
      (TokenStream.ofText pieces.render).isComplete = true := by
  rw [TokenStream.ofText, render, String.toList_ofList]
  exact (h.lexes ht).ofChars 0

theorem breaks_nil : Breaks [] := by
  intro p hp
  simp at hp

theorem breaks_cons {p : Piece} (h : p.isBreak = true) (pieces : Layout) :
    Breaks (p :: pieces) := by
  intro q hq
  rw [List.head?_cons, Option.mem_some_iff] at hq
  rwa [← hq]

theorem Breaks.append {xs ys : Layout} (hx : Breaks xs) (hy : Breaks ys) : Breaks (xs ++ ys) := by
  cases xs with
  | nil => exact hy
  | cons p xs => exact breaks_cons (hx p rfl) _

/-- Nothing has to set the layout off from a soft piece before it. -/
theorem Clean.soft {p : Piece} {pieces : Layout} (h : Clean pieces) (hp : p.Writable)
    (hs : p.isSoft = true) : Clean (p :: pieces) :=
  .cons hp (.inl hs) h

theorem Clean.append {xs ys : Layout} (hx : Clean xs) (hy : Clean ys) (hb : Breaks ys) :
    Clean (xs ++ ys) := by
  induction hx with
  | nil => exact hy
  | cons hp hnext _ ih =>
    refine .cons hp ?_ ih
    rcases hnext with hs | hs
    · exact .inl hs
    · exact .inr (hs.append hb)

theorem clean_word {t : Token} (h : ∀ v, t ≠ .blockString v) : Clean [.word t] := by
  refine .cons ?_ (.inr breaks_nil) .nil
  cases t with
  | blockString v => exact absurd rfl (h v)
  | _ => trivial

end Layout

end GraphQLText
