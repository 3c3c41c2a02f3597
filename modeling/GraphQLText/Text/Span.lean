/-!
# Spans of source text

A position in a text is a count of bytes of its UTF-8 form. A span is the stretch between two
such positions.
-/

namespace GraphQLText

set_option autoImplicit false

/-- The bytes from `start` up to, but not including, `stop`. -/
structure Span where
  start : Nat
  stop : Nat
deriving DecidableEq, Repr, Inhabited

namespace Span

/-- The span of a node that is not located in any text. -/
def zero : Span := ⟨0, 0⟩

end Span

namespace Text

/-- The number of bytes that the characters take in UTF-8. -/
def byteLength : List Char → Nat
  | [] => 0
  | c :: cs => c.utf8Size + byteLength cs

@[simp] theorem byteLength_nil : byteLength [] = 0 := rfl

@[simp] theorem byteLength_cons (c : Char) (cs : List Char) :
    byteLength (c :: cs) = c.utf8Size + byteLength cs := rfl

@[simp] theorem byteLength_append (xs ys : List Char) :
    byteLength (xs ++ ys) = byteLength xs + byteLength ys := by
  induction xs with
  | nil => simp
  | cons c xs ih => simp [ih, Nat.add_assoc]

theorem byteLength_eq_utf8ByteSize (cs : List Char) :
    byteLength cs = (String.ofList cs).utf8ByteSize := by
  induction cs with
  | nil => simp
  | cons c cs ih =>
    have hs : String.ofList (c :: cs) = String.singleton c ++ String.ofList cs := by
      rw [String.singleton_eq_ofList, ← String.ofList_append]
      rfl
    rw [byteLength_cons, ih, hs, String.utf8ByteSize_append, String.utf8ByteSize_singleton]

theorem byteLength_toList (s : String) : byteLength s.toList = s.utf8ByteSize := by
  rw [byteLength_eq_utf8ByteSize, String.ofList_toList]

/-- The characters that lie wholly within the first `n` bytes. -/
def takeBytes : Nat → List Char → List Char
  | _, [] => []
  | n, c :: cs => if c.utf8Size ≤ n then c :: takeBytes (n - c.utf8Size) cs else []

theorem takeBytes_zero (cs : List Char) : takeBytes 0 cs = [] := by
  cases cs with
  | nil => rfl
  | cons c cs =>
    have h := c.utf8Size_pos
    simp [takeBytes]
    omega

theorem takeBytes_byteLength_append (xs ys : List Char) :
    takeBytes (byteLength xs) (xs ++ ys) = xs := by
  induction xs with
  | nil => exact takeBytes_zero ys
  | cons c xs ih => simp [takeBytes, ih]

/-- What is left of a text without the characters that lie wholly within its first `n` bytes. -/
def dropBytes : Nat → List Char → List Char
  | _, [] => []
  | n, c :: cs => if c.utf8Size ≤ n then dropBytes (n - c.utf8Size) cs else c :: cs

theorem dropBytes_zero (cs : List Char) : dropBytes 0 cs = cs := by
  cases cs with
  | nil => rfl
  | cons c cs =>
    have h := c.utf8Size_pos
    simp [dropBytes]
    omega

theorem dropBytes_byteLength_append (xs ys : List Char) :
    dropBytes (byteLength xs) (xs ++ ys) = ys := by
  induction xs with
  | nil => exact dropBytes_zero ys
  | cons c xs ih => simp [dropBytes, ih]

def slice (span : Span) (cs : List Char) : List Char :=
  takeBytes (span.stop - span.start) (dropBytes span.start cs)

theorem slice_append (xs ys zs : List Char) :
    slice ⟨byteLength xs, byteLength xs + byteLength ys⟩ (xs ++ (ys ++ zs)) = ys := by
  rw [slice, Nat.add_sub_cancel_left, dropBytes_byteLength_append, takeBytes_byteLength_append]

/-- The part of `cs` that was read when `rest` is what remains of it. -/
def consumed (cs rest : List Char) : List Char :=
  cs.take (cs.length - rest.length)

theorem consumed_append (xs rest : List Char) : consumed (xs ++ rest) rest = xs := by
  simp [consumed]

end Text

end GraphQLText
