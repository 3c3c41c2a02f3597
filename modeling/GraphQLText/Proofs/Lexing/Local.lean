import GraphQLText.Proofs.Lexing.Written

/-!
# What a token depends on

How a token is read does not depend on what stands behind it, as long as that begins in the same way
or with a character that ends every token.
-/

namespace GraphQLText

set_option autoImplicit false

namespace QuotedString

theorem decode_simple {c x : Char} (h : simpleEscape? c = some x) (cs : List Char) :
    decode ('\\' :: c :: cs) = Outcome.prepend [x] (decode cs) := by
  have hu : c ≠ 'u' := by rintro rfl; simp [simpleEscape?] at h
  rw [decode]
  · simp only [h]
  · exact fun _ _ _ _ _ hc _ => hu hc

/-- Decoding does not look behind the closing mark. -/
theorem decode_local {cs value rest : List Char} (h : decode cs = .ok (value, rest)) :
    ∃ x, cs = x ++ rest ∧ x ≠ [] ∧ ∀ rest', decode (x ++ rest') = .ok (value, rest') := by
  have hprepend : ∀ {xs cs value : List Char},
      Outcome.prepend xs (decode cs) = .ok (value, rest) →
        ∃ more, decode cs = .ok (more, rest) ∧ value = xs ++ more := by
    intro xs cs value hp
    cases hd : decode cs with
    | error f => simp [hd] at hp
    | ok p =>
      obtain ⟨more, after⟩ := p
      simp only [hd, prepend_ok, Except.ok.injEq, Prod.mk.injEq] at hp
      exact ⟨more, by rw [hp.2], hp.1.symm⟩
  fun_induction decode cs generalizing value with
  | case1 => simp at h
  | case2 tail =>
    simp only [Except.ok.injEq, Prod.mk.injEq] at h
    obtain ⟨rfl, rfl⟩ := h
    exact ⟨['"'], rfl, by simp, fun rest' => by simp [decode]⟩
  | case3 a b c d tail x hx ih =>
    obtain ⟨more, hd, rfl⟩ := hprepend h
    obtain ⟨y, rfl, _, hy⟩ := ih hd
    refine ⟨'\\' :: 'u' :: a :: b :: c :: d :: y, rfl, by simp, fun rest' => ?_⟩
    simp only [List.cons_append, decode, hx, hy, prepend_ok, List.nil_append]
  | case4 => simp at h
  | case5 c tail _ x hx ih =>
    obtain ⟨more, hd, rfl⟩ := hprepend h
    obtain ⟨y, rfl, _, hy⟩ := ih hd
    refine ⟨'\\' :: c :: y, rfl, by simp, fun rest' => ?_⟩
    rw [List.cons_append, List.cons_append, decode_simple hx, hy, prepend_ok]
  | case6 => simp at h
  | case7 c tail _ _ _ hc ih =>
    obtain ⟨more, hd, rfl⟩ := hprepend h
    obtain ⟨y, rfl, _, hy⟩ := ih hd
    refine ⟨c :: y, rfl, by simp, fun rest' => ?_⟩
    rw [List.cons_append, decode_plain hc, hy, prepend_ok]
  | case8 => simp at h
  | case9 => simp at h

end QuotedString

namespace Number

theorem mayEndBefore_of_head? {rest : List Char} (h : ∀ c ∈ rest.head?, isTail c = false) :
    mayEndBefore rest = true := by
  cases rest with
  | nil => rfl
  | cons c rest => simp [mayEndBefore, h c rfl]

/-- The number that was taken is taken wherever it may end. -/
theorem longest?_local {cs rest : List Char} {n : Longest} (h : longest? cs = some n)
    (hr : mayEndBefore rest = true) :
    longest? (n.text ++ rest) = some ⟨n.text, n.isFloat, rest⟩ := by
  have hform := form_of_longest? h
  obtain ⟨text, isFloat, behind⟩ := n
  cases isFloat with
  | false =>
    simpa using longest?_of_form hform (.inl rfl) (.inl rfl) hr
  | true =>
    simp only [if_true] at hform
    cases hform with
    | intro hw hf he hne =>
      rw [longest?_of_form hw hf he hr]
      rcases hne with hne | hne <;> simp [hne]

end Number

namespace BlockString

/-- Marks that a text begins with are marks of the text before the end of its first closing one. -/
theorem marks_prefix (marks rest : List Char) {y rest' more : List Char}
    (hlen : marks.length ≤ 3) (h : y ++ '"' :: '"' :: '"' :: rest' = marks ++ more) :
    ∃ more', y ++ '"' :: '"' :: '"' :: rest = marks ++ more' := by
  have hsplit : ∀ rest : List Char,
      y ++ '"' :: '"' :: '"' :: rest = (y ++ ['"', '"', '"']) ++ rest := by simp
  have hmarks : marks <+: y ++ ['"', '"', '"'] := by
    have hleft : marks <+: y ++ '"' :: '"' :: '"' :: rest' := h ▸ List.prefix_append ..
    have hright : y ++ ['"', '"', '"'] <+: y ++ '"' :: '"' :: '"' :: rest' :=
      hsplit rest' ▸ List.prefix_append ..
    apply List.prefix_of_prefix_length_le hleft hright
    simp only [List.length_append, List.length_cons, List.length_nil]
    omega
  obtain ⟨more', hmore⟩ := hmarks
  exact ⟨more' ++ rest, by rw [hsplit, ← hmore, List.append_assoc]⟩

/-- Reading a block string does not look behind the closing triple mark. -/
theorem read_local {cs raw rest : List Char} (h : read cs = .ok (raw, rest)) :
    ∃ x, cs = x ++ '"' :: '"' :: '"' :: rest ∧
      ∀ rest', read (x ++ '"' :: '"' :: '"' :: rest') = .ok (raw, rest') := by
  fun_induction read cs generalizing raw with
  | case1 => simp at h
  | case2 tail ih =>
    obtain ⟨more, hr, rfl⟩ := read_eq_ok_of_map ['"', '"', '"'] h
    obtain ⟨y, rfl, hy⟩ := ih hr
    refine ⟨'\\' :: '"' :: '"' :: '"' :: y, rfl, fun rest' => ?_⟩
    simp only [List.cons_append, read, hy, Except.map, List.nil_append]
  | case3 tail =>
    simp only [Except.ok.injEq, Prod.mk.injEq] at h
    obtain ⟨rfl, rfl⟩ := h
    exact ⟨[], rfl, fun rest' => by simp [read]⟩
  | case4 => simp at h
  | case5 c tail hmark hquote hc ih =>
    obtain ⟨more, hr, rfl⟩ := read_eq_ok_of_map [c] h
    obtain ⟨y, rfl, hy⟩ := ih hr
    refine ⟨c :: y, rfl, fun rest' => ?_⟩
    rw [List.cons_append, read_cons, hy]
    · rfl
    · intro after hb heq
      obtain ⟨after', h'⟩ := marks_prefix ['"', '"', '"'] rest (by simp) heq
      exact hmark after' hb h'
    · intro after hb heq
      obtain ⟨after', h'⟩ := marks_prefix ['"', '"'] rest (by simp) heq
      exact hquote after' hb h'
    · simpa using hc

end BlockString

namespace Scan

/-- The second text begins like the first one, or it begins with the end of any token. -/
def Alike (rest rest' : List Char) : Prop :=
  ∀ d ∈ rest'.head?, rest.head? = some d ∨ Number.isTail d = false ∧ d ≠ '"'

theorem Alike.refl (rest : List Char) : Alike rest rest :=
  fun _ hd => .inl hd

theorem EndsBefore.alike {rest' : List Char} (h : EndsBefore rest') (rest : List Char) :
    Alike rest rest' :=
  fun d hd => .inr (h d hd)

theorem Alike.head? {p : Char → Bool} {rest rest' : List Char} (h : Alike rest rest')
    (hr : ∀ d ∈ rest.head?, p d = false) (htail : ∀ d, Number.isTail d = false → p d = false) :
    ∀ d ∈ rest'.head?, p d = false := by
  intro d hd
  rcases h d hd with hsame | ⟨hd, _⟩
  · exact hr d hsame
  · exact htail d hd

/-- Before all texts that begin like the rest, the text is read as just the token. -/
def Spells (text : List Char) (t : Token) (rest : List Char) : Prop :=
  ∀ rest', Alike rest rest' →
    ∃ c tail, text ++ rest' = c :: tail ∧ Lead.ofChar c ≠ .other ∧ token? c tail = .token t rest'

theorem spells_of_lead {c : Char} {text rest : List Char} {t : Token}
    (hlead : Lead.ofChar c ≠ .other)
    (h : ∀ rest', Alike rest rest' → token? c (text ++ rest') = .token t rest') :
    Spells (c :: text) t rest :=
  fun rest' hr => ⟨c, text ++ rest', rfl, hlead, h rest' hr⟩

theorem points_local {cs rest : List Char} {t : Token} (h : points cs = .token t rest) :
    ∃ text, cs = text ++ rest ∧ ∀ rest', points (text ++ rest') = .token t rest' := by
  unfold points at h
  split at h
  · simp only [token.injEq] at h
    obtain ⟨rfl, rfl⟩ := h
    exact ⟨['.', '.'], rfl, fun _ => rfl⟩
  · exact absurd h (by simp)

theorem string_local {cs rest : List Char} {t : Token} (h : string cs = .token t rest) :
    ∃ text, cs = text ++ rest ∧
      ∀ rest', Alike rest rest' → string (text ++ rest') = .token t rest' := by
  unfold string at h
  split at h
  · split at h
    · next heq =>
      simp only [token.injEq] at h
      obtain ⟨rfl, rfl⟩ := h
      obtain ⟨x, rfl, hx⟩ := BlockString.read_local heq
      refine ⟨'"' :: '"' :: x ++ ['"', '"', '"'], by simp, fun rest' _ => ?_⟩
      simp only [List.append_assoc, List.cons_append, List.nil_append, string, hx]
    · exact absurd h (by simp)
  · next hblock =>
    split at h
    · next heq =>
      simp only [token.injEq] at h
      obtain ⟨rfl, rfl⟩ := h
      rw [QuotedString.read_eq_decode] at heq
      obtain ⟨x, rfl, hne, hx⟩ := QuotedString.decode_local heq
      refine ⟨x, rfl, fun rest' hr => ?_⟩
      have hbody : ∀ body, x ++ rest' ≠ '"' :: '"' :: body := by
        intro body hmarks
        obtain ⟨d, y, rfl⟩ := List.exists_cons_of_ne_nil hne
        obtain ⟨rfl, hbehind⟩ := List.cons.inj hmarks
        have hy : y ++ rest' = '"' :: body := hbehind
        -- a mark at the beginning closes the string, so the other one stands behind it
        have hclosed := hx []
        simp only [QuotedString.decode, List.append_nil, Except.ok.injEq,
          Prod.mk.injEq] at hclosed
        rw [hclosed.2, List.nil_append] at hy
        rcases hr '"' (by simp [hy]) with hsame | ⟨_, hmark⟩
        · obtain ⟨more, rfl⟩ := List.head?_eq_some_iff.mp hsame
          exact hblock more (by simp [hclosed.2])
        · exact hmark rfl
      rw [string]
      · rw [QuotedString.read_eq_decode, hx]
      · exact hbody
    · exact absurd h (by simp)

theorem number_local {c : Char} {cs rest : List Char} {t : Token}
    (h : number c cs = .token t rest) :
    ∃ text, cs = text ++ rest ∧
      ∀ rest', Alike rest rest' → number c (text ++ rest') = .token t rest' := by
  unfold number at h
  split at h
  · next n hn =>
    split at h
    · next hend =>
      simp only [token.injEq] at h
      obtain ⟨rfl, rfl⟩ := h
      obtain ⟨text, htext, hcs⟩ := Number.exists_text_of_longest? hn
      refine ⟨text, hcs.symm, fun rest' hr => ?_⟩
      have hend' := Number.mayEndBefore_of_head? (hr.head? (Number.head?_of_mayEndBefore hend)
        fun _ hd => hd)
      have hlong := Number.longest?_local hn hend'
      rw [htext, List.cons_append] at hlong
      simp only [number, hlong, hend', if_true, htext]
    · exact absurd h (by simp)
  · exact absurd h (by simp)

theorem name_local {c : Char} {cs rest : List Char} {t : Token} (h : name c cs = .token t rest) :
    ∃ text, cs = text ++ rest ∧
      ∀ rest', Alike rest rest' → name c (text ++ rest') = .token t rest' := by
  simp only [name, token.injEq] at h
  obtain ⟨rfl, rfl⟩ := h
  refine ⟨cs.takeWhile isNameChar, by simp, fun rest' hr => ?_⟩
  have hall : ∀ d ∈ cs.takeWhile isNameChar, isNameChar d = true :=
    List.all_eq_true.mp List.all_takeWhile
  have hstop : ∀ d ∈ (cs.dropWhile isNameChar).head?, isNameChar d = false := by
    intro d hd
    have hnot := List.head?_dropWhile_not isNameChar cs
    rwa [Option.mem_def.mp hd] at hnot
  have hstop' := hr.head? hstop fun d hd => isNameChar_of_isTail hd
  rw [name, Text.takeWhile_append_stop hall hstop', Text.dropWhile_append_stop hall hstop']

/-- A token is read in the same way before all texts that begin like the one behind it. -/
theorem spells_of_token? {c : Char} {cs rest : List Char} {t : Token}
    (h : token? c cs = .token t rest) :
    ∃ text, cs = text ++ rest ∧ Spells (c :: text) t rest := by
  unfold token? at h
  split at h
  · next p hlead =>
    simp only [token.injEq] at h
    obtain ⟨rfl, rfl⟩ := h
    exact ⟨[], rfl, spells_of_lead (by simp [hlead]) fun rest' _ => by simp [token?, hlead]⟩
  · next hlead =>
    obtain ⟨text, rfl, htext⟩ := points_local h
    exact ⟨text, rfl, spells_of_lead (by simp [hlead]) fun rest' _ => by
      simp only [token?, hlead, htext]⟩
  · next hlead =>
    obtain ⟨text, rfl, htext⟩ := string_local h
    exact ⟨text, rfl, spells_of_lead (by simp [hlead]) fun rest' hr => by
      simp only [token?, hlead, htext rest' hr]⟩
  · next hlead =>
    obtain ⟨text, rfl, htext⟩ := number_local h
    exact ⟨text, rfl, spells_of_lead (by simp [hlead]) fun rest' hr => by
      simp only [token?, hlead, htext rest' hr]⟩
  · next hlead =>
    obtain ⟨text, rfl, htext⟩ := name_local h
    exact ⟨text, rfl, spells_of_lead (by simp [hlead]) fun rest' hr => by
      simp only [token?, hlead, htext rest' hr]⟩
  · exact absurd h (by simp)

end Scan

end GraphQLText
