import GraphQLText.Proofs.Lexing.Broken
import GraphQLText.Token.Cuts

/-!
# No cut of a token fails

All positions at which a string is cut stand between two characters of its text: each is where some
character begins that takes one byte. So the tokens that are cut out by positions are those that are
read character by character, and so is what a report says of a broken token.
-/

namespace GraphQLText

set_option autoImplicit false

namespace Text

theorem cut?_of_eq {position : Nat} {cs before rest : List Char} (hcs : cs = before ++ rest)
    (hposition : position = byteLength before) : cut? position cs = some (before, rest) := by
  rw [hcs, hposition, cut?_byteLength_append]

theorem piece?_of_eq {start stop : Nat} {cs before piece rest : List Char}
    (hcs : cs = before ++ (piece ++ rest)) (hstart : start = byteLength before)
    (hstop : stop = byteLength (before ++ piece)) : piece? ⟨start, stop⟩ cs = some piece := by
  rw [hcs, hstart, hstop, piece?_append]

end Text

namespace QuotedString

theorem bind_prepend {found : Option Outcome} {outcome : Outcome} (value : List Char)
    (h : found = some outcome) :
    (do return Outcome.prepend value (← found)) = some (Outcome.prepend value outcome) := by
  rw [h]
  rfl

/-- From wherever decoding begins, it comes to the same end as without positions. -/
theorem decodeCut?_eq (before cs : List Char) :
    decodeCut? (before ++ cs) (Text.byteLength before) cs = some (decode cs) := by
  have hescape : ∀ a b c d : Char,
      Text.cut? 2 ['\\', 'u', a, b, c, d] = some (['\\', 'u'], [a, b, c, d]) := fun a b c d =>
    Text.cut?_byteLength_append ['\\', 'u'] [a, b, c, d]
  fun_induction decode cs generalizing before with
  | case1 => rfl
  | case2 rest =>
    have hcut : Text.cut? (Text.byteLength before + 1) (before ++ '"' :: rest) =
        some (before ++ ['"'], rest) := Text.cut?_of_eq (by simp) (by simp [Char.utf8Size])
    rw [decodeCut?, hcut]
    rfl
  | case3 a b c d rest x hx ih =>
    have ih := ih (before ++ ['\\', 'u', a, b, c, d])
    rw [List.append_assoc, Text.byteLength_append] at ih
    have hpoint : codePointOf? [a, b, c, d] = some x := hx
    rw [decodeCut?, hescape, Option.bind_eq_bind, Option.bind_some]
    simp only [hpoint]
    exact bind_prepend [x] ih
  | case4 a b c d rest hx =>
    have hpoint : codePointOf? [a, b, c, d] = none := hx
    rw [decodeCut?, hescape, Option.bind_eq_bind, Option.bind_some]
    simp only [hpoint, Option.pure_def]
  | case5 c rest hu x hx ih =>
    have ih := ih (before ++ ['\\', c])
    rw [List.append_assoc, Text.byteLength_append] at ih
    rw [decodeCut?.eq_4 _ _ _ _ hu]
    simp only [hx]
    exact bind_prepend [x] ih
  | case6 c rest hu hx =>
    rw [decodeCut?.eq_4 _ _ _ _ hu]
    simp only [hx]
  | case7 c rest hquote hu hback hplain ih =>
    have ih := ih (before ++ [c])
    rw [List.append_assoc, Text.byteLength_append] at ih
    rw [decodeCut?.eq_5 _ _ _ _ hquote hu hback, if_pos hplain]
    exact bind_prepend [c] ih
  | case8 rest hquote hu hback hplain =>
    rw [decodeCut?.eq_5 _ _ _ _ hquote hu hback, if_neg hplain, if_pos rfl]
  | case9 c rest hquote hu hback hplain hne =>
    rw [decodeCut?.eq_5 _ _ _ _ hquote hu hback, if_neg hplain, if_neg hne]

theorem stops_of_isPlain {c : Char} (hc : isPlain c = true) :
    ¬ (c = '\n' ∨ c = '\r') ∧ ¬ BlockString.isForbidden c = true ∧ c ≠ '\\' ∧ c ≠ '"' := by
  refine ⟨?_, ?_, ?_, ?_⟩
  · rintro (rfl | rfl) <;> exact absurd hc (by decide)
  · simp only [isPlain, Bool.and_eq_true, Bool.or_eq_true, beq_iff_eq, decide_eq_true_eq] at hc
    rcases hc.2 with rfl | hle
    · decide
    · simp [BlockString.isForbidden, Char.not_lt.mpr hle]
  · rintro rfl
    exact absurd hc (by decide)
  · rintro rfl
    exact absurd hc (by decide)

section Read

variable {before : List Char} (hbefore : ∀ c ∈ before, isPlain c = true)

include hbefore

theorem takeWhile_isPlain {c : Char} (hc : isPlain c = false) (cs : List Char) :
    (before ++ c :: cs).takeWhile isPlain = before := by
  rw [List.takeWhile_append_of_pos hbefore, List.takeWhile_cons_of_neg (by simp [hc]),
    List.append_nil]

theorem dropWhile_isPlain {c : Char} (hc : isPlain c = false) (cs : List Char) :
    (before ++ c :: cs).dropWhile isPlain = c :: cs := by
  rw [List.dropWhile_append_of_pos hbefore, List.dropWhile_cons_of_neg (by simp [hc])]

theorem read_stray {c : Char} (hquote : c ≠ '"') (hback : c ≠ '\\') (hc : isPlain c = false)
    (cs : List Char) :
    read (before ++ c :: cs) = .error (strayFault c) ∧ brokenPart (before ++ c :: cs) = [] := by
  rw [read, brokenPart, dropWhile_isPlain hbefore hc]
  constructor
  · split
    · next heq => cases heq
    · next heq => exact absurd (List.cons.inj heq).1 hquote
    · next heq => exact absurd (List.cons.inj heq).1 hback
    · next heq => rw [(List.cons.inj heq).1]
  · split
    · next heq => exact absurd (List.cons.inj heq).1 hback
    · rfl

/-- From wherever reading begins behind plain characters, it comes to the same end as without
positions. -/
theorem readCut?_eq (cs : List Char) :
    readCut? (before ++ cs) (Text.byteLength before) cs =
      some ((read (before ++ cs)).mapError fun fault =>
        (fault, Text.byteLength (brokenPart (before ++ cs)))) := by
  induction cs generalizing before with
  | nil =>
    rw [readCut?, read, brokenPart, List.dropWhile_append_of_pos hbefore]
    rfl
  | cons c cs ih =>
    cases hc : isPlain c with
    | true =>
      have hbefore' : ∀ d ∈ before ++ [c], isPlain d = true := by
        simpa [or_imp, forall_and, hc] using hbefore
      have ih := ih hbefore'
      rw [List.append_assoc, Text.byteLength_append] at ih
      obtain ⟨hline, hforbidden, hback, hquote⟩ := stops_of_isPlain hc
      rw [readCut?, if_neg hline, if_neg hforbidden, if_neg hback, if_neg hquote]
      exact ih
    | false =>
      have htake := takeWhile_isPlain hbefore hc cs
      have hdrop := dropWhile_isPlain hbefore hc cs
      rw [readCut?]
      by_cases hback : c = '\\'
      · subst hback
        have hdecode : decodeCut? ('\\' :: cs) 0 ('\\' :: cs) = some (decode ('\\' :: cs)) :=
          decodeCut?_eq [] _
        rw [if_neg (by decide), if_neg (by decide), if_pos rfl, Text.cut?_byteLength_append, read,
          brokenPart, htake, hdrop]
        simp only [Option.bind_eq_bind, Option.bind_some, hdecode, Option.pure_def]
      by_cases hquote : c = '"'
      · subst hquote
        have hcut : Text.cut? (Text.byteLength before + 1) (before ++ '"' :: cs) =
            some (before ++ ['"'], cs) := Text.cut?_of_eq (by simp) (by simp [Char.utf8Size])
        have hpiece : Text.piece? ⟨0, Text.byteLength before⟩ (before ++ '"' :: cs) = some before :=
          Text.piece?_append [] before _
        rw [if_neg (by decide), if_neg (by decide), if_neg (by decide), if_pos rfl, hcut, hpiece,
          read, htake, hdrop]
        rfl
      obtain ⟨hread, hpart⟩ := read_stray hbefore hquote hback hc cs
      rw [hread, hpart, strayFault]
      by_cases hline : c = '\n' ∨ c = '\r'
      · rw [if_pos hline, if_pos hline]
        rfl
      · rw [if_neg hline, if_neg hline, if_pos (isForbidden_of_not_plain hquote hback hline hc)]
        rfl

end Read

end QuotedString

namespace BlockString

theorem isAscii_of_mem_escapedMark : ∀ c ∈ escapedMark, Text.IsAscii c := by
  simp [escapedMark, Text.IsAscii]

theorem isAscii_of_mem_closingMark : ∀ c ∈ closingMark, Text.IsAscii c := by
  simp [closingMark, Text.IsAscii]

theorem toNat_lt_of_isForbidden {c : Char} (h : isForbidden c = true) : c.toNat < 32 := by
  simp only [isForbidden, Bool.and_eq_true, decide_eq_true_eq] at h
  exact h.1.1.1

theorem isForbidden_ofNat : ∀ n < 256, 128 ≤ n → isForbidden (Char.ofNat n) = false := by
  decide +kernel

/-- What is found at a position is told from the bytes there. -/
theorem markAt?_eq (before ahead : List UInt8) :
    markAt? (before ++ ahead) before.length =
      if Text.bytes escapedMark <+: ahead then some .escaped
      else if Text.bytes closingMark <+: ahead then some .closing
      else ahead.head?.map fun byte =>
        if isForbidden (Char.ofNat byte.toNat) then .control else .other := by
  have hbyte : (before ++ ahead)[before.length]? = ahead.head? := by
    rw [List.getElem?_append_right (Nat.le_refl _), Nat.sub_self, List.head?_eq_getElem?]
  simp only [markAt?, Text.bytesFrom?_append, Option.bind_eq_bind, Option.bind_some,
    Option.pure_def,
    hbyte]
  cases ahead.head? <;> rfl

theorem lt_of_markAt? {bs : List UInt8} {position : Nat} {mark : Mark}
    (h : markAt? bs position = some mark) : position < bs.length := by
  rcases Nat.lt_trichotomy position bs.length with hlt | rfl | hgt
  · exact hlt
  · have hend := markAt?_eq bs []
    rw [List.append_nil, h] at hend
    simp [escapedMark, closingMark, String.utf8EncodeChar] at hend
  · rw [markAt?, Text.bytesFrom?, if_neg (Nat.not_le.mpr hgt)] at h
    cases h

/-- Nothing is found at a byte that is not a character by itself. -/
theorem markAt?_wide {byte : UInt8} (hbyte : 128 ≤ byte.toNat) (before ahead : List UInt8) :
    markAt? (before ++ byte :: ahead) before.length = some .other := by
  have hno : ∀ mark : List Char, mark ≠ [] → (∀ c ∈ mark, Text.IsAscii c) →
      ¬ Text.bytes mark <+: byte :: ahead := by
    intro mark hne hmark hprefix
    obtain ⟨c, mark, rfl⟩ := List.exists_cons_of_ne_nil hne
    have hc := hmark c List.mem_cons_self
    rw [Text.bytes_cons, Text.utf8EncodeChar_of_isAscii hc, List.singleton_append,
      List.cons_prefix_cons] at hprefix
    rw [← hprefix.1, Text.toNat_byte hc] at hbyte
    exact absurd hc (Nat.not_lt.mpr hbyte)
  have hforbidden := isForbidden_ofNat byte.toNat byte.toNat_lt hbyte
  rw [markAt?_eq, if_neg (hno _ (by decide) isAscii_of_mem_escapedMark),
    if_neg (hno _ (by decide) isAscii_of_mem_closingMark), List.head?_cons, Option.map_some,
    hforbidden]
  rfl

section Chars

variable (before : List Char) {c : Char} {cs : List Char}

theorem markAt?_escaped :
    markAt? (Text.bytes (before ++ (escapedMark ++ cs))) (Text.byteLength before) =
      some .escaped := by
  rw [Text.bytes_append, ← Text.length_bytes, markAt?_eq, if_pos]
  rw [Text.bytes_append]
  exact List.prefix_append ..

theorem markAt?_closing :
    markAt? (Text.bytes (before ++ (closingMark ++ cs))) (Text.byteLength before) =
      some .closing := by
  rw [Text.bytes_append, ← Text.length_bytes, markAt?_eq, if_neg, if_pos]
  · rw [Text.bytes_append]
    exact List.prefix_append ..
  · rw [Text.bytes_prefix_iff isAscii_of_mem_escapedMark]
    intro hprefix
    exact absurd (List.cons_prefix_cons.mp hprefix).1 (by decide)

theorem markAt?_ascii (hc : Text.IsAscii c) (hescaped : ¬ escapedMark <+: c :: cs)
    (hclosing : ¬ closingMark <+: c :: cs) :
    markAt? (Text.bytes (before ++ c :: cs)) (Text.byteLength before) =
      some (if isForbidden c then .control else .other) := by
  rw [← Text.bytes_prefix_iff isAscii_of_mem_escapedMark] at hescaped
  rw [← Text.bytes_prefix_iff isAscii_of_mem_closingMark] at hclosing
  rw [Text.bytes_append, ← Text.length_bytes, markAt?_eq, if_neg hescaped, if_neg hclosing,
    Text.bytes_cons, Text.utf8EncodeChar_of_isAscii hc, List.singleton_append, List.head?_cons,
    Option.map_some, Text.toNat_byte hc, Char.ofNat_toNat]

/-- A walk over the bytes of a text that passes by those at which nothing is found passes by whole
characters. -/
theorem walk_eq {α : Type} (walk : Nat → α)
    (hwalk : ∀ position, markAt? (Text.bytes (before ++ c :: cs)) position = some .other →
      walk position = walk (position + 1))
    (hforbidden : isForbidden c = false) (hescaped : ¬ escapedMark <+: c :: cs)
    (hclosing : ¬ closingMark <+: c :: cs) :
    walk (Text.byteLength before) = walk (Text.byteLength (before ++ [c])) := by
  by_cases hc : Text.IsAscii c
  · have hmark := markAt?_ascii before hc hescaped hclosing
    rw [hforbidden] at hmark
    rw [hwalk _ hmark, Text.byteLength_append, Text.byteLength_cons, Text.utf8Size_of_isAscii hc]
    rfl
  · -- the bytes of `c` are passed by one after the other
    have hall : ∀ more code : List UInt8, more ++ code = String.utf8EncodeChar c →
        walk (Text.byteLength before + more.length) = walk (Text.byteLength (before ++ [c])) := by
      intro more code hcode
      induction code generalizing more with
      | nil =>
        have hlength := congrArg List.length hcode
        rw [List.append_nil, String.length_utf8EncodeChar] at hlength
        rw [hlength, Text.byteLength_append]
        rfl
      | cons byte code ih =>
        have hbyte := Text.le_of_mem_utf8EncodeChar hc
          (hcode ▸ List.mem_append_right more List.mem_cons_self)
        have hmark := markAt?_wide hbyte (Text.bytes before ++ more) (code ++ Text.bytes cs)
        have hbytes : Text.bytes before ++ more ++ byte :: (code ++ Text.bytes cs) =
            Text.bytes (before ++ c :: cs) := by
          rw [Text.bytes_append, Text.bytes_cons, ← hcode]
          simp
        rw [hbytes, List.length_append, Text.length_bytes] at hmark
        have ih := ih (more ++ [byte]) (by rw [List.append_assoc]; exact hcode)
        rw [List.length_append, List.length_singleton, ← Nat.add_assoc] at ih
        rw [hwalk _ hmark, ih]
    exact hall [] _ rfl

end Chars

theorem not_begins_escapedMark {c : Char} {cs : List Char}
    (h : ∀ rest, c = '\\' → cs = '"' :: '"' :: '"' :: rest → False) :
    ¬ escapedMark <+: c :: cs := by
  rintro ⟨rest, hrest⟩
  obtain ⟨rfl, rfl⟩ := List.cons.inj hrest
  exact h rest rfl rfl

theorem not_begins_closingMark {c : Char} {cs : List Char}
    (h : ∀ rest, c = '"' → cs = '"' :: '"' :: rest → False) : ¬ closingMark <+: c :: cs := by
  rintro ⟨rest, hrest⟩
  obtain ⟨rfl, rfl⟩ := List.cons.inj hrest
  exact h rest rfl rfl

theorem isAscii_of_isForbidden {c : Char} (h : isForbidden c = true) : Text.IsAscii c :=
  Nat.lt_trans (toNat_lt_of_isForbidden h) (by decide)

section Equations

variable {body piece raw : List Char} {bs : List UInt8} {last position : Nat}

theorem readCut?_escaped (hmark : markAt? bs position = some .escaped)
    (hpiece : Text.piece? ⟨last, position⟩ body = some piece) :
    readCut? body bs raw last position =
      readCut? body bs (raw ++ piece ++ closingMark) (position + 4) (position + 4) := by
  rw [readCut?, dif_pos (lt_of_markAt? hmark), hmark]
  simp only [Option.bind_eq_bind, Option.bind_some, hpiece]

theorem readCut?_closing {before rest : List Char} (hmark : markAt? bs position = some .closing)
    (hpiece : Text.piece? ⟨last, position⟩ body = some piece)
    (hcut : Text.cut? (position + 3) body = some (before, rest)) :
    readCut? body bs raw last position = some (.ok (raw ++ piece, rest)) := by
  rw [readCut?, dif_pos (lt_of_markAt? hmark), hmark]
  simp only [Option.bind_eq_bind, Option.bind_some, hpiece, hcut, Option.pure_def]

theorem readCut?_control (hmark : markAt? bs position = some .control) :
    readCut? body bs raw last position = some (.error .invalidCharacter) := by
  rw [readCut?, dif_pos (lt_of_markAt? hmark), hmark]
  rfl

theorem readCut?_other (hmark : markAt? bs position = some .other) :
    readCut? body bs raw last position = readCut? body bs raw last (position + 1) := by
  rw [readCut?, dif_pos (lt_of_markAt? hmark), hmark]
  rfl

theorem recheckCut?_escaped (hmark : markAt? bs position = some .escaped) :
    recheckCut? bs position = recheckCut? bs (position + 4) := by
  rw [recheckCut?, dif_pos (lt_of_markAt? hmark), hmark]
  rfl

theorem recheckCut?_closing (hmark : markAt? bs position = some .closing) :
    recheckCut? bs position = some none := by
  rw [recheckCut?, dif_pos (lt_of_markAt? hmark), hmark]
  rfl

theorem recheckCut?_control (hmark : markAt? bs position = some .control) :
    recheckCut? bs position = some (some .invalidCharacter) := by
  rw [recheckCut?, dif_pos (lt_of_markAt? hmark), hmark]
  rfl

theorem recheckCut?_other (hmark : markAt? bs position = some .other) :
    recheckCut? bs position = recheckCut? bs (position + 1) := by
  rw [recheckCut?, dif_pos (lt_of_markAt? hmark), hmark]
  rfl

end Equations

/-- From wherever reading begins, it comes to the same end as without positions. -/
theorem readCut?_eq (copied pending cs raw : List Char) :
    readCut? (copied ++ pending ++ cs) (Text.bytes (copied ++ pending ++ cs)) raw
        (Text.byteLength copied) (Text.byteLength (copied ++ pending)) =
      some ((read cs).map fun (more, rest) => (raw ++ pending ++ more, rest)) := by
  have hpiece : ∀ copied pending rest,
      Text.piece? ⟨Text.byteLength copied, Text.byteLength (copied ++ pending)⟩
        (copied ++ pending ++ rest) = some pending := fun _ _ _ => by
    rw [List.append_assoc, Text.piece?_append]
  fun_induction read cs generalizing copied pending raw with
  | case1 =>
    rw [readCut?, dif_neg (by simp)]
    rfl
  | case2 rest ih =>
    have ih := ih (copied ++ pending ++ escapedMark) [] (raw ++ pending ++ closingMark)
    rw [List.append_nil, Text.byteLength_append, List.append_assoc _ escapedMark] at ih
    refine (readCut?_escaped (markAt?_escaped (copied ++ pending)) (hpiece ..)).trans (ih.trans ?_)
    cases read rest <;> simp [Except.map, closingMark]
  | case3 rest =>
    have hcut : Text.cut? (Text.byteLength (copied ++ pending) + 3)
        (copied ++ pending ++ (closingMark ++ rest)) =
      some (copied ++ pending ++ closingMark, rest) :=
      Text.cut?_of_eq (List.append_assoc ..).symm <| by
        rw [Text.byteLength_append _ closingMark]
        rfl
    refine (readCut?_closing (markAt?_closing (copied ++ pending)) (hpiece ..) hcut).trans ?_
    simp [Except.map]
  | case4 c rest hescaped hclosing hforbidden =>
    have hmark := markAt?_ascii (copied ++ pending) (isAscii_of_isForbidden hforbidden)
      (not_begins_escapedMark hescaped) (not_begins_closingMark hclosing)
    rw [if_pos hforbidden] at hmark
    rw [readCut?_control hmark]
    rfl
  | case5 c rest hescaped hclosing hforbidden ih =>
    have ih := ih copied (pending ++ [c]) raw
    have hstep := walk_eq (copied ++ pending)
      (readCut? (copied ++ pending ++ c :: rest) (Text.bytes (copied ++ pending ++ c :: rest)) raw
        (Text.byteLength copied))
      (fun _ => readCut?_other) (by simpa using hforbidden)
      (not_begins_escapedMark hescaped) (not_begins_closingMark hclosing)
    rw [← List.append_assoc, List.append_assoc _ [c]] at ih
    refine (hstep.trans ih).trans ?_
    cases read rest <;> simp [Except.map]

/-- A second look at a block string goes over the same positions. -/
theorem recheckCut?_eq (before cs : List Char) :
    recheckCut? (Text.bytes (before ++ cs)) (Text.byteLength before) = some (recheck cs) := by
  fun_induction recheck cs generalizing before with
  | case1 =>
    rw [recheckCut?, dif_neg (by simp)]
  | case2 rest ih =>
    have ih := ih (before ++ escapedMark)
    rw [Text.byteLength_append, List.append_assoc] at ih
    exact (recheckCut?_escaped (markAt?_escaped before)).trans ih
  | case3 rest => exact recheckCut?_closing (markAt?_closing before)
  | case4 c rest hescaped hclosing hforbidden =>
    have hmark := markAt?_ascii before (isAscii_of_isForbidden hforbidden)
      (not_begins_escapedMark hescaped) (not_begins_closingMark hclosing)
    rw [if_pos hforbidden] at hmark
    exact recheckCut?_control hmark
  | case5 c rest hescaped hclosing hforbidden ih =>
    have ih := ih (before ++ [c])
    have hstep := walk_eq before (recheckCut? (Text.bytes (before ++ c :: rest)))
      (fun _ => recheckCut?_other) (by simpa using hforbidden)
      (not_begins_escapedMark hescaped) (not_begins_closingMark hclosing)
    rw [List.append_assoc] at ih
    exact hstep.trans ih

theorem byteLength_of_isIndent {line : List Char} (h : ∀ c ∈ line, isIndent c = true) :
    Text.byteLength line = line.length := by
  induction line with
  | nil => rfl
  | cons c line ih =>
    have hc : c.utf8Size = 1 := by
      have hc := h c List.mem_cons_self
      simp only [isIndent, Bool.or_eq_true, beq_iff_eq] at hc
      rcases hc with rfl | rfl <;> rfl
    rw [Text.byteLength_cons, ih fun d hd => h d (List.mem_cons_of_mem c hd), hc, List.length_cons,
      Nat.add_comm]

theorem length_le_byteLength (line : List Char) : line.length ≤ Text.byteLength line := by
  induction line with
  | nil => exact Nat.le_refl 0
  | cons c line ih =>
    have hc := c.utf8Size_pos
    rw [List.length_cons, Text.byteLength_cons]
    omega

/-- As many bytes of indentation as characters are cut off, or else the line is shorter. -/
theorem dropCut?_eq {n : Nat} {line : List Char} (h : ∀ c ∈ line.take n, isIndent c = true) :
    dropCut? n line = some (line.drop n) := by
  have hlength := length_le_byteLength line
  have hindent := byteLength_of_isIndent h
  rw [dropCut?]
  split
  · next hless => rw [List.drop_eq_nil_of_le (by omega)]
  · next hless =>
    have htake : (line.take n).length = n := by
      rcases Nat.lt_or_ge line.length n with hshort | hlong
      · rw [List.take_of_length_le (by omega)] at hindent
        omega
      · exact List.length_take_of_le hlong
    rw [Text.cut?_of_eq (List.take_append_drop n line).symm (by omega)]
    rfl

theorem isIndent_of_mem_take {ls : List (List Char)} {line : List Char} (hline : line ∈ ls)
    {c : Char}
    (hc : c ∈ line.take (commonIndent ls)) : isIndent c = true := by
  cases hblank : isBlank line with
  | true => exact List.all_eq_true.mp hblank c (List.mem_of_mem_take hc)
  | false =>
    have hle := commonIndent_le hline hblank
    have hwhile : line.take (indentWidth line) = line.takeWhile isIndent :=
      List.prefix_iff_eq_take.mp (List.takeWhile_prefix isIndent) |>.symm
    have hmem := (List.take_prefix_take_left hle).subset hc
    rw [hwhile] at hmem
    exact List.all_eq_true.mp List.all_takeWhile c hmem

theorem mapM_of_forall {α β : Type} {f : α → Option β} {g : α → β} {as : List α}
    (h : ∀ a ∈ as, f a = some (g a)) : as.mapM f = some (as.map g) := by
  induction as with
  | nil => rfl
  | cons a as ih =>
    rw [List.mapM_cons, h a List.mem_cons_self, ih fun b hb => h b (List.mem_cons_of_mem a hb)]
    rfl

theorem dedentCut?_eq (ls : List (List Char)) : dedentCut? ls = some (dedent ls) := by
  cases ls with
  | nil => rfl
  | cons first rest =>
    have hrest : rest.mapM (dropCut? (commonIndent rest)) =
        some (rest.map (List.drop (commonIndent rest))) :=
      mapM_of_forall fun line hline => dropCut?_eq fun c => isIndent_of_mem_take hline
    rw [dedentCut?, hrest]
    rfl

theorem valueCut?_eq (raw : List Char) : valueCut? raw = some (value raw) := by
  rw [valueCut?, dedentCut?_eq]
  rfl

end BlockString

namespace Scan

theorem stringCut?_eq (cs : List Char) : stringCut? cs = some (string cs) := by
  unfold stringCut?
  split
  · next body =>
    have hread := BlockString.readCut?_eq [] [] body []
    simp only [List.nil_append, Text.byteLength_nil] at hread
    rw [string, hread]
    cases BlockString.read body with
    | error fault => rfl
    | ok found =>
      simp only [Except.map, Option.bind_eq_bind, Option.bind_some, BlockString.valueCut?_eq,
        Option.pure_def]
  · next hmark =>
    have hread := QuotedString.readCut?_eq (List.forall_mem_nil _) cs
    simp only [List.nil_append, Text.byteLength_nil] at hread
    obtain ⟨rest, hpart⟩ := brokenPart_prefix cs
    have hcut : Text.cut? (Text.byteLength (QuotedString.brokenPart cs)) cs =
        some (QuotedString.brokenPart cs, rest) := Text.cut?_of_eq hpart.symm rfl
    rw [string.eq_2 cs hmark, hread]
    cases QuotedString.read cs with
    | error fault =>
      change (Text.cut? (Text.byteLength (QuotedString.brokenPart cs)) cs).bind _ = _
      rw [hcut]
      rfl
    | ok found => rfl

/-- Cut out by positions, a token is what it is when it is read. -/
theorem tokenCut?_eq (c : Char) (cs : List Char) : tokenCut? c cs = some (token? c cs) := by
  unfold tokenCut?
  split
  · next hlead => rw [stringCut?_eq, token?, hlead]
  · rfl

end Scan

section Reports

variable (before text rest : List Char)

theorem Fault.classifyCut?_eq :
    classifyCut? (before ++ (text ++ rest))
        ⟨Text.byteLength before, Text.byteLength before + Text.byteLength text⟩ =
      some (classify (before ++ (text ++ rest))
        ⟨Text.byteLength before, Text.byteLength before + Text.byteLength text⟩) := by
  have hpiece := Text.piece?_append before text rest
  have hcut := Text.cut?_byteLength_append (before ++ text) rest
  have hdrop := Text.dropBytes_byteLength_append (before ++ text) rest
  have hblock := BlockString.recheckCut?_eq [] rest
  rw [Text.byteLength_append] at hpiece
  rw [Text.byteLength_append, List.append_assoc] at hcut hdrop
  rw [List.nil_append, Text.byteLength_nil] at hblock
  simp only [classifyCut?, classify, recheck, Text.slice_append, hpiece, hcut, hdrop, hblock,
    Option.bind_eq_bind, Option.bind_some, Option.pure_def]
  split
  · rfl
  · next hblock =>
    simp only [Option.some.injEq]
    congr 1
    split
    · next heq => exact absurd (List.cons.inj heq).2 (hblock _)
    · rfl
  · simp
  · rfl

theorem BrokenToken.lexemeCut?_eq :
    lexemeCut? (before ++ (text ++ rest))
        ⟨Text.byteLength before, Text.byteLength before + Text.byteLength text⟩ =
      some (lexemeAt (before ++ (text ++ rest))
        ⟨Text.byteLength before, Text.byteLength before + Text.byteLength text⟩) := by
  have hpiece := Text.piece?_append before text rest
  have hcut := Text.cut?_byteLength_append (before ++ text) rest
  have hdrop := Text.dropBytes_byteLength_append (before ++ text) rest
  rw [Text.byteLength_append] at hpiece
  rw [Text.byteLength_append, List.append_assoc] at hcut hdrop
  -- a broken number is cut out with all that it runs into
  have hwide : Text.piece? ⟨Text.byteLength before, Text.byteLength before + Text.byteLength text +
      Text.byteLength (rest.takeWhile Number.isTail)⟩ (before ++ (text ++ rest)) =
        some (text ++ rest.takeWhile Number.isTail) := by
    have hrest : before ++ (text ++ rest) =
        before ++ (text ++ rest.takeWhile Number.isTail ++ rest.dropWhile Number.isTail) := by
      rw [List.append_assoc, List.takeWhile_append_dropWhile]
    refine Text.piece?_of_eq hrest rfl ?_
    rw [Text.byteLength_append, Text.byteLength_append, Nat.add_assoc]
  simp only [lexemeCut?, lexemeAt, Text.slice_append, hpiece, hcut, hdrop, Text.firstNot?_getD,
    hwide, Option.bind_eq_bind, Option.bind_some, Option.pure_def]
  cases text with
  | nil => rfl
  | cons c tail => exact (apply_ite some ..).symm

end Reports

end GraphQLText
