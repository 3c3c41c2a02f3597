import GraphQLText.Proofs.Lexing.Insert
import GraphQLText.Proofs.Snippets.Layout

/-!
# Ways to a location

A location says how to come to its offset from the start of the source: down over as many line feeds
as there are lines above, and then along the line. No other way leads there, and of two offsets the
greater one has the later location.
-/

namespace GraphQLText

set_option autoImplicit false

namespace Text

/-- Where one comes to from the start of a text, first down over `lines` line feeds and then along
`chars` characters of the line there. The text may have no such line, and the line may be shorter. -/
def walk? : Nat → Nat → List Char → Option Nat
  | 0, 0, _ => some 0
  | _, _, [] => none
  | 0, chars + 1, c :: cs =>
    if c = '\n' then none else (walk? 0 chars cs).map (c.utf8Size + ·)
  | lines + 1, chars, c :: cs =>
    (walk? (if c = '\n' then lines else lines + 1) chars cs).map (c.utf8Size + ·)

theorem walk?_zero (cs : List Char) : walk? 0 0 cs = some 0 := by
  cases cs <;> rfl

/-- The text before an offset tells a way to it. -/
theorem walk?_append (before rest : List Char) :
    walk? (before.count '\n') (lastLine before).length (before ++ rest) = some (byteLength before) := by
  induction before with
  | nil => exact walk?_zero rest
  | cons c before ih =>
    by_cases hmem : '\n' ∈ c :: before
    · have hpos := List.count_pos_iff.mpr hmem
      rw [lastLine_cons_of_mem hmem]
      obtain ⟨lines, hlines⟩ := Nat.exists_eq_add_one_of_ne_zero (Nat.ne_of_gt hpos)
      have hless : before.count '\n' = if c = '\n' then lines else lines + 1 := by
        rw [List.count_cons] at hlines
        by_cases hc : c = '\n' <;> simp_all
      rw [hlines, List.cons_append, walk?, ← hless, ih]
      rfl
    · rw [List.count_eq_zero.mpr hmem, lastLine_of_not_mem hmem]
      rw [List.mem_cons, not_or] at hmem
      rw [List.count_eq_zero.mpr hmem.2, lastLine_of_not_mem hmem.2] at ih
      rw [List.length_cons, List.cons_append, walk?, if_neg (Ne.symm hmem.1), ih]
      rfl

/-- Where a way leads, the text before that place tells the way. -/
theorem exists_of_walk? {lines chars offset : Nat} {cs : List Char}
    (h : walk? lines chars cs = some offset) :
    ∃ before rest, cs = before ++ rest ∧ byteLength before = offset ∧
      before.count '\n' = lines ∧ (lastLine before).length = chars := by
  fun_induction walk? lines chars cs generalizing offset with
  | case1 cs => exact ⟨[], cs, rfl, Option.some.inj h, rfl, rfl⟩
  | case2 => cases h
  | case3 => cases h
  | case4 chars c cs hc ih =>
    obtain ⟨n, hn, rfl⟩ := Option.map_eq_some_iff.mp h
    obtain ⟨before, rest, rfl, rfl, hcount, hlength⟩ := ih hn
    have hbefore := List.count_eq_zero.mp hcount
    have hmem : '\n' ∉ c :: before := by
      rw [List.mem_cons, not_or]
      exact ⟨Ne.symm hc, hbefore⟩
    refine ⟨c :: before, rest, rfl, rfl, List.count_eq_zero.mpr hmem, ?_⟩
    rw [lastLine_of_not_mem hbefore] at hlength
    rw [lastLine_of_not_mem hmem, List.length_cons, hlength]
  | case5 lines chars c cs ih =>
    obtain ⟨n, hn, rfl⟩ := Option.map_eq_some_iff.mp h
    obtain ⟨before, rest, rfl, rfl, hcount, hlength⟩ := ih hn
    have hmore : (c :: before).count '\n' = lines + 1 := by
      rw [List.count_cons, hcount]
      by_cases hc : c = '\n' <;> simp [hc]
    have hmem : '\n' ∈ c :: before := List.count_pos_iff.mp (by omega)
    exact ⟨c :: before, rest, rfl, rfl, hmore, by rw [lastLine_cons_of_mem hmem, hlength]⟩

/-- The offset lies between two characters of the text, or at one of its ends. -/
def IsBoundary (cs : List Char) (offset : Nat) : Prop :=
  ∃ before rest, cs = before ++ rest ∧ byteLength before = offset

theorem exists_between {before rest before' rest' : List Char} (h : before ++ rest = before' ++ rest')
    (hlt : byteLength before < byteLength before') :
    ∃ between, between ≠ [] ∧ before' = before ++ between := by
  rcases List.append_eq_append_iff.mp h with ⟨between, hbetween, -⟩ | ⟨between, hbetween, -⟩
  · refine ⟨between, ?_, hbetween⟩
    rintro rfl
    rw [hbetween, List.append_nil] at hlt
    exact Nat.lt_irrefl _ hlt
  · rw [hbetween, byteLength_append] at hlt
    omega

end Text

namespace Location

def Precedes (first second : Location) : Prop :=
  first.line < second.line ∨ first.line = second.line ∧ first.column < second.column

theorem Precedes.not_precedes {first second : Location} (h : first.Precedes second) :
    ¬ second.Precedes first := by
  unfold Precedes at *
  omega

/-- The end of a piece of a source lies behind its start. -/
theorem precedes_of_ne_nil (before : List Char) {piece : List Char} (h : piece ≠ [])
    (rest : List Char) :
    (ofOffset (before ++ (piece ++ rest)) (Text.byteLength before)).Precedes
      (ofOffset (before ++ (piece ++ rest)) (Text.byteLength (before ++ piece))) := by
  have hfirst := ofOffset_byteLength before (piece ++ rest)
  have hsecond := ofOffset_byteLength (before ++ piece) rest
  rw [List.append_assoc] at hsecond
  rw [hfirst, hsecond, Precedes]
  by_cases hpiece : '\n' ∈ piece
  · have hpos := List.count_pos_iff.mpr hpiece
    left
    simp only [List.count_append]
    omega
  · have hpos := List.length_pos_iff.mpr h
    right
    rw [List.count_append, List.count_eq_zero.mpr hpiece, Text.lastLine_append_of_not_mem hpiece,
      List.length_append]
    exact ⟨rfl, Nat.add_lt_add_right (Nat.lt_add_of_pos_right hpos) 1⟩

theorem precedes_of_lt {source : List Char} {a b : Nat} (ha : Text.IsBoundary source a)
    (hb : Text.IsBoundary source b) (hlt : a < b) :
    (ofOffset source a).Precedes (ofOffset source b) := by
  obtain ⟨before, rest, rfl, rfl⟩ := ha
  obtain ⟨before', rest', hsource, rfl⟩ := hb
  obtain ⟨between, hne, rfl⟩ := Text.exists_between hsource hlt
  rw [List.append_assoc] at hsource
  rw [hsource]
  exact precedes_of_ne_nil before hne rest'

theorem lt_iff_precedes {source : List Char} {a b : Nat} (ha : Text.IsBoundary source a)
    (hb : Text.IsBoundary source b) :
    a < b ↔ (ofOffset source a).Precedes (ofOffset source b) := by
  constructor
  · exact precedes_of_lt ha hb
  · intro hprecedes
    rcases Nat.lt_trichotomy a b with hlt | rfl | hgt
    · exact hlt
    · exact absurd hprecedes hprecedes.not_precedes
    · exact absurd (precedes_of_lt hb ha hgt) hprecedes.not_precedes

/-- The location of an offset between two characters is found. Its line is the one below as many line
feeds as stand before the offset, a walk to its line and column leads to the offset, and a walk
anywhere else does not. Offsets are in the order of their locations. -/
theorem ofOffset_faithful {source : List Char} {a b : Nat} (ha : Text.IsBoundary source a)
    (hb : Text.IsBoundary source b) :
    at? source a = some (ofOffset source a) ∧
    (∃ before rest, source = before ++ rest ∧ Text.byteLength before = a ∧
      (ofOffset source a).line = before.count '\n' + 1) ∧
    Text.walk? ((ofOffset source a).line - 1) ((ofOffset source a).column - 1) source = some a ∧
    (∀ lines chars, Text.walk? lines chars source = some a →
      ofOffset source a = ⟨a, lines + 1, chars + 1⟩) ∧
    (a < b ↔ (ofOffset source a).Precedes (ofOffset source b)) := by
  have horder := lt_iff_precedes ha hb
  obtain ⟨before, rest, rfl, rfl⟩ := ha
  have hlocation := ofOffset_byteLength before rest
  refine ⟨?_, ⟨before, rest, rfl, rfl, ?_⟩, ?_, ?_, horder⟩
  · rw [hlocation, Excerpt.at?_eq]
  · rw [hlocation]
  · rw [hlocation]
    exact Text.walk?_append before rest
  · intro lines chars hwalk
    obtain ⟨before', rest', hsource, hlength, rfl, rfl⟩ := Text.exists_of_walk? hwalk
    obtain ⟨rfl, rfl⟩ := Text.append_inj_of_byteLength hsource hlength.symm
    exact hlocation

/-- Right behind a line feed, and at the end of the source behind a character of two bytes. -/
theorem ofOffset_faithful_umlaut :
    Text.IsBoundary "ü\r\n\nü".toList 4 ∧ Text.IsBoundary "ü\r\n\nü".toList 7 ∧
      at? "ü\r\n\nü".toList 4 = some ⟨4, 2, 1⟩ ∧
      Text.walk? 1 0 "ü\r\n\nü".toList = some 4 ∧
      (4 < 7 ↔ (ofOffset "ü\r\n\nü".toList 4).Precedes (ofOffset "ü\r\n\nü".toList 7)) := by
  have hfirst : Text.IsBoundary "ü\r\n\nü".toList 4 :=
    ⟨"ü\r\n".toList, "\nü".toList, by decide, by decide⟩
  have hlast : Text.IsBoundary "ü\r\n\nü".toList 7 :=
    ⟨"ü\r\n\nü".toList, [], by decide, by decide⟩
  obtain ⟨hfound, -, hwalk, -, horder⟩ := ofOffset_faithful hfirst hlast
  exact ⟨hfirst, hlast, hfound, hwalk, horder⟩

end Location

end GraphQLText
