/-!
# Ignored characters

Blanks, commas, line ends, byte order marks and comments separate tokens and mean nothing else. A
comment runs from a number sign to the end of its line.
-/

namespace GraphQLText.Ignored

set_option autoImplicit false

def isIgnored (c : Char) : Bool :=
  c == ' ' || c == ',' || c == '\t' || c == '\n' || c == '\r' || c == '\x0c' || c == '\ufeff'

def isLineEnd (c : Char) : Bool :=
  c == '\n' || c == '\r'

/-- The text from its first token on. The flag tells whether the text begins inside a comment. -/
def skip : Bool → List Char → List Char
  | _, [] => []
  | true, c :: cs => if isLineEnd c then skip false cs else skip true cs
  | false, c :: cs =>
    if isIgnored c then skip false cs
    else if c = '#' then skip true cs
    else c :: cs

theorem skip_suffix (comment : Bool) (cs : List Char) : skip comment cs <:+ cs := by
  induction cs generalizing comment with
  | nil => cases comment <;> exact List.suffix_rfl
  | cons c cs ih =>
    cases comment <;> simp only [skip]
    · split
      · exact (ih false).trans (List.suffix_cons c cs)
      · split
        · exact (ih true).trans (List.suffix_cons c cs)
        · exact List.suffix_rfl
    · split
      · exact (ih false).trans (List.suffix_cons c cs)
      · exact (ih true).trans (List.suffix_cons c cs)

theorem length_skip_le (comment : Bool) (cs : List Char) :
    (skip comment cs).length ≤ cs.length :=
  (skip_suffix comment cs).length_le

end GraphQLText.Ignored
