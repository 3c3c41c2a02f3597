import GraphQLText.Text.Excerpt

/-!
# The bytes of a text

The UTF-8 form of a text, in which a position may lie within a character. Bytes below 128 stand for
characters by themselves, and all bytes of any other character are greater.
-/

namespace GraphQLText.Text

set_option autoImplicit false

def bytes (cs : List Char) : List UInt8 :=
  cs.flatMap String.utf8EncodeChar

def bytesFrom? (position : Nat) (bs : List UInt8) : Option (List UInt8) :=
  if position ≤ bs.length then some (bs.drop position) else none

def firstNot? (p : Char → Bool) : List Char → Option Nat
  | [] => none
  | c :: cs => if p c then (firstNot? p cs).map (c.utf8Size + ·) else some 0

theorem firstNot?_getD (p : Char → Bool) (cs : List Char) :
    (firstNot? p cs).getD (byteLength cs) = byteLength (cs.takeWhile p) := by
  induction cs with
  | nil => rfl
  | cons c cs ih =>
    rw [firstNot?, List.takeWhile_cons]
    split
    · rw [byteLength_cons, byteLength_cons, ← ih]
      cases firstNot? p cs <;> rfl
    · rfl

@[simp] theorem bytes_nil : bytes [] = [] := rfl

@[simp] theorem bytes_cons (c : Char) (cs : List Char) :
    bytes (c :: cs) = String.utf8EncodeChar c ++ bytes cs := rfl

@[simp] theorem bytes_append (xs ys : List Char) : bytes (xs ++ ys) = bytes xs ++ bytes ys :=
  List.flatMap_append

@[simp] theorem length_bytes (cs : List Char) : (bytes cs).length = byteLength cs := by
  induction cs with
  | nil => rfl
  | cons c cs ih =>
    rw [bytes_cons, List.length_append, String.length_utf8EncodeChar, ih, byteLength_cons]

theorem bytesFrom?_append (bs cs : List UInt8) : bytesFrom? bs.length (bs ++ cs) = some cs := by
  rw [bytesFrom?, List.length_append, if_pos (Nat.le_add_right ..), List.drop_left]

def IsAscii (c : Char) : Prop :=
  c.toNat < 128

theorem utf8EncodeChar_of_isAscii {c : Char} (h : IsAscii c) :
    String.utf8EncodeChar c = [UInt8.ofNat c.toNat] := by
  have hle : c.val.toNat ≤ 127 := Nat.le_of_lt_succ h
  simp only [String.utf8EncodeChar, if_pos hle, Char.toNat]

theorem utf8Size_of_isAscii {c : Char} (h : IsAscii c) : c.utf8Size = 1 := by
  rw [← String.length_utf8EncodeChar, utf8EncodeChar_of_isAscii h, List.length_singleton]

theorem le_of_mem_utf8EncodeChar {c : Char} (h : ¬ IsAscii c) {b : UInt8}
    (hb : b ∈ String.utf8EncodeChar c) : 128 ≤ b.toNat := by
  have hlt : ¬ c.val.toNat ≤ 127 := fun hle => h (Nat.lt_succ_of_le hle)
  simp only [String.utf8EncodeChar, if_neg hlt] at hb
  split at hb
  · simp only [List.mem_cons, List.not_mem_nil, or_false] at hb
    rcases hb with rfl | rfl <;> simp only [UInt8.toNat_ofNat'] <;> omega
  · split at hb
    · simp only [List.mem_cons, List.not_mem_nil, or_false] at hb
      rcases hb with rfl | rfl | rfl <;> simp only [UInt8.toNat_ofNat'] <;> omega
    · simp only [List.mem_cons, List.not_mem_nil, or_false] at hb
      rcases hb with rfl | rfl | rfl | rfl <;> simp only [UInt8.toNat_ofNat'] <;> omega

theorem byte_inj {c d : Char} (hc : IsAscii c) (hd : IsAscii d) :
    UInt8.ofNat c.toNat = UInt8.ofNat d.toNat ↔ c = d := by
  refine ⟨fun h => ?_, fun h => h ▸ rfl⟩
  have hnat := congrArg UInt8.toNat h
  simp only [UInt8.toNat_ofNat'] at hnat
  unfold IsAscii at hc hd
  exact Char.toNat_inj.mp (by omega)

theorem toNat_byte {c : Char} (h : IsAscii c) : (UInt8.ofNat c.toNat).toNat = c.toNat := by
  unfold IsAscii at h
  rw [UInt8.toNat_ofNat']
  omega

/-- Among texts that begin with characters of one byte each, bytes are as good as characters. -/
theorem bytes_prefix_iff {mark : List Char} (hmark : ∀ c ∈ mark, IsAscii c) (cs : List Char) :
    bytes mark <+: bytes cs ↔ mark <+: cs := by
  induction mark generalizing cs with
  | nil => simp
  | cons m mark ih =>
    have hm := hmark m List.mem_cons_self
    have ih := ih fun c hc => hmark c (List.mem_cons_of_mem _ hc)
    cases cs with
    | nil => simp [utf8EncodeChar_of_isAscii hm]
    | cons c cs =>
      by_cases hc : IsAscii c
      · rw [bytes_cons, bytes_cons, utf8EncodeChar_of_isAscii hm, utf8EncodeChar_of_isAscii hc,
          List.singleton_append, List.singleton_append, List.cons_prefix_cons,
          List.cons_prefix_cons, ih,
          byte_inj hm hc]
      · have hne : m ≠ c := fun heq => hc (heq ▸ hm)
        rw [List.cons_prefix_cons]
        refine ⟨fun hprefix => ?_, fun hprefix => absurd hprefix.1 hne⟩
        obtain ⟨b, more, hcode⟩ := List.exists_cons_of_length_pos
          (l := String.utf8EncodeChar c) (String.length_utf8EncodeChar c ▸ c.utf8Size_pos)
        have hb := le_of_mem_utf8EncodeChar hc (hcode ▸ List.mem_cons_self)
        rw [bytes_cons, bytes_cons, utf8EncodeChar_of_isAscii hm, hcode, List.singleton_append,
          List.cons_append, List.cons_prefix_cons] at hprefix
        rw [← hprefix.1, toNat_byte hm] at hb
        exact absurd hm (Nat.not_lt.mpr hb)

end GraphQLText.Text
