import GraphQLText.Layout.Piece
import GraphQLText.Proofs.Lexing.Stream

/-!
# Phrases

What the grammar is made of. A phrase is a row of tokens that spells a node, and a token of it is
spare if the node is written without it. The relations here say how the phrases of a production are
put together from those of its parts.
-/

namespace GraphQLText

set_option autoImplicit false

structure Word where
  token : Token
  /-- Whether the token is left out when the node is written. -/
  spare : Bool
deriving DecidableEq, Repr, Inhabited

/-- A row of tokens that spells a node. -/
abbrev Phrase := List Word

namespace Word

abbrev need (t : Token) : Word :=
  ⟨t, false⟩

abbrev mark (p : Punctuator) : Word :=
  need (.punctuator p)

abbrev name (text : String) : Word :=
  need (.name text)

end Word

namespace Phrase

def tokens (ws : Phrase) : List Token :=
  ws.map Word.token

/-- The tokens that are written, with every string as a quoted one. -/
def needed (ws : Phrase) : List Token :=
  (ws.filter fun w => !w.spare).map fun w => w.token.plain

@[simp] theorem tokens_nil : tokens [] = [] := rfl

@[simp] theorem tokens_cons (w : Word) (ws : Phrase) :
    tokens (w :: ws) = w.token :: tokens ws := rfl

@[simp] theorem tokens_append (us vs : Phrase) : tokens (us ++ vs) = tokens us ++ tokens vs :=
  List.map_append

@[simp] theorem needed_nil : needed [] = [] := rfl

@[simp] theorem needed_need (t : Token) (ws : Phrase) :
    needed (Word.need t :: ws) = t.plain :: needed ws := rfl

@[simp] theorem needed_spare (t : Token) (ws : Phrase) :
    needed (⟨t, true⟩ :: ws) = needed ws := rfl

@[simp] theorem needed_append (us vs : Phrase) : needed (us ++ vs) = needed us ++ needed vs := by
  simp [needed]

/-- A phrase with a spare token is longer than what is written of it. -/
theorem length_needed_lt {ws : Phrase} {w : Word} (hw : w ∈ ws) (hs : w.spare = true) :
    ws.needed.length < ws.tokens.length := by
  simp only [needed, tokens, List.length_map]
  exact List.length_filter_lt_length_iff_exists.mpr ⟨w, hw, by simp [hs]⟩

def IsBraced (ws : Phrase) : Prop :=
  ws.tokens.head? = some (.punctuator .openBrace)

def WellFormed (ws : Phrase) : Prop :=
  ∀ t ∈ ws.tokens, t.WellFormed

@[simp] theorem wellFormed_nil : WellFormed [] := by
  intro t ht
  simp at ht

@[simp] theorem wellFormed_cons (w : Word) (ws : Phrase) :
    WellFormed (w :: ws) ↔ w.token.WellFormed ∧ WellFormed ws := by
  simp [WellFormed]

@[simp] theorem wellFormed_append (us vs : Phrase) :
    WellFormed (us ++ vs) ↔ WellFormed us ∧ WellFormed vs := by
  simp [WellFormed, or_imp, forall_and]

end Phrase

variable {α : Type}

inductive Many (G : Phrase → α → Prop) : Phrase → List α → Prop
  | nil : Many G [] []
  | cons {u v : Phrase} {a : α} {as : List α} :
      G u a → Many G v as → Many G (u ++ v) (a :: as)

inductive Perhaps (G : Phrase → α → Prop) : Phrase → Option α → Prop
  | absent : Perhaps G [] none
  | present {u : Phrase} {a : α} : G u a → Perhaps G u (some a)

/-- An item behind a token. Both may be missing. -/
inductive Behind (t : Token) (G : Phrase → α → Prop) : Phrase → Option α → Prop
  | absent : Behind t G [] none
  | present {u : Phrase} {a : α} : G u a → Behind t G (.need t :: u) (some a)

/-- One or more items between two punctuators. All of it may be missing. -/
inductive Enclosed (opening close : Punctuator) (G : Phrase → α → Prop) :
    Phrase → List α → Prop
  | absent : Enclosed opening close G [] []
  | present {u : Phrase} {as : List α} : Many G u as → as ≠ [] →
      Enclosed opening close G (.mark opening :: (u ++ [.mark close])) as

/-- One or more items with a punctuator between each and the next. -/
inductive Row (separator : Punctuator) (G : Phrase → α → Prop) : Phrase → List α → Prop
  | last {u : Phrase} {a : α} : G u a → Row separator G u [a]
  | cons {u v : Phrase} {a : α} {as : List α} : G u a → Row separator G v as →
      Row separator G (u ++ .mark separator :: v) (a :: as)

/-- The same, where the punctuator may also precede the first item. It is spare there. -/
inductive Separated (separator : Punctuator) (G : Phrase → α → Prop) : Phrase → List α → Prop
  | plain {u : Phrase} {as : List α} : Row separator G u as → Separated separator G u as
  | led {u : Phrase} {as : List α} : Row separator G u as →
      Separated separator G (⟨.punctuator separator, true⟩ :: u) as

/-- Separated items behind a token. All of it may be missing. -/
inductive Introduced (t : Token) (separator : Punctuator) (G : Phrase → α → Prop) :
    Phrase → List α → Prop
  | absent : Introduced t separator G [] []
  | present {u : Phrase} {as : List α} : Separated separator G u as →
      Introduced t separator G (.need t :: u) as

namespace Many

variable {G H : Phrase → α → Prop}

theorem single {u : Phrase} {a : α} (h : G u a) : Many G u [a] := by
  have hcons : Many G (u ++ []) [a] := .cons h .nil
  rwa [List.append_nil] at hcons

theorem mono {ws : Phrase} {as : List α} (h : Many G ws as)
    (hG : ∀ u, ∀ a ∈ as, G u a → u.length ≤ ws.length → H u a) : Many H ws as := by
  induction h with
  | nil => exact .nil
  | @cons u v a as hu _ ih =>
    refine .cons (hG u a (by simp) hu (by simp)) (ih fun w b hb hw hlen => ?_)
    exact hG w b (by simp [hb]) hw (by simp only [List.length_append]; omega)

theorem exists_of_mem {ws : Phrase} {as : List α} (h : Many G ws as) {a : α} (ha : a ∈ as) :
    ∃ u, G u a := by
  induction h with
  | nil => simp at ha
  | cons hu _ ih =>
    rcases List.mem_cons.mp ha with rfl | ha
    · exact ⟨_, hu⟩
    · exact ih ha

end Many

theorem Enclosed.mono {G H : Phrase → α → Prop} {opening close : Punctuator} {ws : Phrase}
    {as : List α} (h : Enclosed opening close G ws as) (hGH : ∀ u, ∀ a ∈ as, G u a → H u a) :
    Enclosed opening close H ws as := by
  cases h with
  | absent => exact .absent
  | present hm hne => exact .present (hm.mono fun u a ha hu _ => hGH u a ha hu) hne

theorem Enclosed.eq_nil {G : Phrase → α → Prop} {opening close : Punctuator} {ws : Phrase}
    (h : Enclosed opening close G ws []) : ws = [] := by
  cases h with
  | absent => rfl
  | present _ hne => exact absurd rfl hne

theorem Separated.ne_nil {separator : Punctuator} {G : Phrase → α → Prop} {ws : Phrase}
    {as : List α} (h : Separated separator G ws as) : as ≠ [] := by
  rintro rfl
  cases h with
  | plain hrow => cases hrow
  | led hrow => cases hrow

theorem Introduced.eq_nil {t : Token} {separator : Punctuator} {G : Phrase → α → Prop} {ws : Phrase}
    (h : Introduced t separator G ws []) : ws = [] := by
  cases h with
  | absent => rfl
  | present hu => exact absurd rfl hu.ne_nil

end GraphQLText
