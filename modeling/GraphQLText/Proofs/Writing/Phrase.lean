import GraphQLText.Layout.Piece
import GraphQLText.Node.Shape
import GraphQLText.Proofs.Grammar.Phrase

/-!
# The phrases of layouts

The tokens of a layout as a phrase without spare tokens. The phrase of a layout that is put together
from others is put together from theirs, so what a node is written as can be compared with the
grammar part by part.
-/

namespace GraphQLText

set_option autoImplicit false

namespace Layout

/-- The tokens of a layout, all of which are written. -/
def phrase (pieces : Layout) : Phrase :=
  pieces.tokens.map Word.need

theorem tokens_phrase (pieces : Layout) : pieces.phrase.tokens = pieces.tokens := by
  simp [phrase, Phrase.tokens, Function.comp_def]

theorem needed_phrase (pieces : Layout) :
    pieces.phrase.needed = pieces.tokens.map Token.plain := by
  unfold phrase
  induction pieces.tokens with
  | nil => rfl
  | cons t ts ih => rw [List.map_cons, Phrase.needed_need, ih, List.map_cons]

@[simp] theorem phrase_nil : phrase [] = [] := rfl

@[simp] theorem phrase_word (t : Token) (pieces : Layout) :
    phrase (.word t :: pieces) = .need t :: phrase pieces := rfl

@[simp] theorem phrase_block (value : String) (level : Nat) (pieces : Layout) :
    phrase (.block value level :: pieces) = .need (.blockString value) :: phrase pieces := rfl

@[simp] theorem phrase_space (pieces : Layout) : phrase (.space :: pieces) = phrase pieces := rfl

@[simp] theorem phrase_comma (pieces : Layout) : phrase (.comma :: pieces) = phrase pieces := rfl

@[simp] theorem phrase_line (level : Nat) (pieces : Layout) :
    phrase (.line level :: pieces) = phrase pieces := rfl

@[simp] theorem phrase_paragraph (pieces : Layout) :
    phrase (.paragraph :: pieces) = phrase pieces := rfl

@[simp] theorem phrase_append (xs ys : Layout) : phrase (xs ++ ys) = phrase xs ++ phrase ys := by
  simp [phrase, tokens]

def phrases (parts : List Layout) : Phrase :=
  parts.flatMap phrase

@[simp] theorem phrases_nil : phrases [] = [] := rfl

@[simp] theorem phrases_cons (part : Layout) (parts : List Layout) :
    phrases (part :: parts) = phrase part ++ phrases parts := rfl

theorem separated_cons_cons (gap p q : Layout) (parts : List Layout) :
    separated gap (p :: q :: parts) = p ++ (gap ++ separated gap (q :: parts)) := by
  simp [separated, List.intercalate]

@[simp] theorem separated_nil (gap : Layout) : separated gap [] = [] := by
  simp [separated]

@[simp] theorem separated_singleton (gap p : Layout) : separated gap [p] = p := by
  simp [separated]

/-- Gaps do not count. -/
theorem phrase_separated {gap : Layout} (h : gap.phrase = []) (parts : List Layout) :
    phrase (separated gap parts) = phrases parts := by
  induction parts with
  | nil => simp
  | cons p parts ih =>
    cases parts with
    | nil => simp
    | cons q parts =>
      rw [separated_cons_cons, phrase_append, phrase_append, ih, h]
      rfl

theorem phrase_flatMap_cons (gap : Piece) (h : phrase [gap] = []) (parts : List Layout) :
    phrase (parts.flatMap fun part => gap :: part) = phrases parts := by
  induction parts with
  | nil => rfl
  | cons p parts ih =>
    rw [List.flatMap_cons, phrase_append, ih, ← List.singleton_append, phrase_append, h]
    rfl

@[simp] theorem phrase_enclosed (opening close : Punctuator) (parts : List Layout) :
    phrase (enclosed opening close parts) = .mark opening :: (phrases parts ++ [.mark close]) := by
  rw [enclosed, phrase_append, phrase_word, phrase_separated rfl]
  rfl

@[simp] theorem phrase_stacked (opening close : Punctuator) (level : Nat) (parts : List Layout) :
    phrase (stacked opening close level parts) =
      .mark opening :: (phrases parts ++ [.mark close]) := by
  rw [stacked, phrase_append, phrase_word, phrase_flatMap_cons _ rfl]
  rfl

@[simp] theorem phrase_braced (level : Nat) (parts : List Layout) :
    phrase (braced level parts) =
      if parts.isEmpty then []
      else .mark .openBrace :: (phrases parts ++ [.mark .closeBrace]) := by
  unfold braced
  split
  · rfl
  · rw [phrase_stacked]

@[simp] theorem phrase_body (level : Nat) (parts : List Layout) :
    phrase (body level parts) = phrase (braced level parts) := by
  unfold body braced
  split
  · rfl
  · rw [phrase_space]

theorem phrase_body_map {α : Type} (level : Nat) (write : α → Layout) (as : List α) :
    phrase (body level (as.map write)) =
      if as.isEmpty then []
      else .mark .openBrace :: (phrases (as.map write) ++ [.mark .closeBrace]) := by
  rw [phrase_body, phrase_braced, List.isEmpty_map]

end Layout

section Lists

variable {α : Type} {G : Phrase → α → Prop} {write : α → Layout}

open Layout (phrases)

section Written

variable [HasShape α] {flag : String → Bool → Bool} {as : List α}
variable (h : ∀ a ∈ as, G (write a).phrase (reshape flag a))
include h

/-- Where each item is written as a phrase of it, so are all of them. -/
theorem Many.of_layouts : Many G (phrases (as.map write)) (reshape flag as) := by
  induction as with
  | nil => exact .nil
  | cons a as ih => exact .cons (h a (by simp)) (ih fun b hb => h b (by simp [hb]))

theorem Enclosed.of_layouts (opening close : Punctuator) :
    Enclosed opening close G
      (if as.isEmpty then [] else .mark opening :: (phrases (as.map write) ++ [.mark close]))
      (reshape flag as) := by
  cases as with
  | nil => exact .absent
  | cons a as => exact .present (Many.of_layouts h) (by simp)

theorem Row.of_layouts (separator : Punctuator) (hne : as ≠ []) :
    Row separator G (Layout.separated [.space, .mark separator, .space] (as.map write)).phrase
      (reshape flag as) := by
  induction as with
  | nil => exact absurd rfl hne
  | cons a as ih =>
    cases as with
    | nil =>
      rw [List.map_cons, List.map_nil, Layout.separated_singleton]
      exact .last (h a (by simp))
    | cons b as =>
      rw [List.map_cons, List.map_cons, Layout.separated_cons_cons, Layout.phrase_append]
      exact .cons (h a (by simp)) (ih (fun c hc => h c (by simp [hc])) (by simp))

end Written

section Needed

variable {ws : Phrase} {as : List α}
variable (h : ∀ a ∈ as, ∀ u, G u a → (write a).phrase.needed = u.needed)
include h

theorem Many.needed_layouts (hg : Many G ws as) : (phrases (as.map write)).needed = ws.needed := by
  induction hg with
  | nil => rfl
  | @cons u v a as hu _ ih =>
    rw [List.map_cons, Layout.phrases_cons, Phrase.needed_append, Phrase.needed_append,
      h a (by simp) u hu, ih fun b hb => h b (by simp [hb])]

theorem Enclosed.needed_layouts {opening close : Punctuator} (hg : Enclosed opening close G ws as) :
    Phrase.needed (if as.isEmpty then []
      else .mark opening :: (phrases (as.map write) ++ [.mark close])) = ws.needed := by
  cases hg with
  | absent => rfl
  | present hm hne =>
    rw [if_neg (by simpa using hne), Phrase.needed_need, Phrase.needed_need, Phrase.needed_append,
      Phrase.needed_append, hm.needed_layouts h]

theorem Row.needed_layouts {separator : Punctuator} (hg : Row separator G ws as) :
    (Layout.separated [.space, .mark separator, .space] (as.map write)).phrase.needed =
      ws.needed := by
  induction hg with
  | @last u a hu => simpa using h a (by simp) u hu
  | @cons u v a as hu hrow ih =>
    have hrest := ih fun b hb => h b (by simp [hb])
    cases as with
    | nil => cases hrow
    | cons b as =>
      rw [List.map_cons, List.map_cons, Layout.separated_cons_cons, Layout.phrase_append,
        Layout.phrase_append, Phrase.needed_append, Phrase.needed_append, Phrase.needed_append,
        h a (by simp) u hu]
      rw [List.map_cons] at hrest
      rw [hrest]
      rfl

theorem Separated.needed_layouts {separator : Punctuator} (hg : Separated separator G ws as) :
    (Layout.separated [.space, .mark separator, .space] (as.map write)).phrase.needed =
      ws.needed := by
  cases hg with
  | plain hrow => exact hrow.needed_layouts h
  | led hrow => rw [Phrase.needed_spare]; exact hrow.needed_layouts h

end Needed

end Lists

end GraphQLText
