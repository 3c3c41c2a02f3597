import GraphQLText.Token.Broken

/-!
# Lexemes

All that reading finds in a source, tokens and broken tokens in one list. Where a stream ends at the
first broken token, the list goes on behind it.
-/

namespace GraphQLText

set_option autoImplicit false

/-- What reading finds at a place where it looks for a token. -/
inductive Lexeme
  | token (t : PlacedToken)
  | broken (b : BrokenToken)
deriving DecidableEq, Repr, Inhabited

namespace Lexeme

def start : Lexeme → Nat
  | token t => t.start
  | broken b => b.start

end Lexeme

namespace TokenStream

def lexemesOfChars (offset : Nat) (cs : List Char) : List Lexeme :=
  let ahead := Ignored.skip false cs
  let start := offset + Text.byteLength (Text.consumed cs ahead)
  match _h : ahead with
  | [] => []
  | c :: tail =>
    match _hs : Scan.token? c tail with
    | .token token rest =>
      let text := Text.consumed (c :: tail) rest
      .token ⟨token, String.ofList text, start⟩ ::
        lexemesOfChars (start + Text.byteLength text) rest
    | .broken fault text lexeme =>
      .broken ⟨fault, String.ofList text, String.ofList lexeme, start⟩ ::
        lexemesOfChars (start + Text.byteLength text) ((c :: tail).drop text.length)
termination_by cs.length
decreasing_by
  all_goals
    have hskip := Ignored.length_skip_le false cs
    have hlen := congrArg List.length _h
    simp only [ahead, List.length_cons] at hlen
  · have hrest := Scan.length_rest_of_token? _hs
    omega
  · obtain ⟨more, rest, rfl, -⟩ := Scan.exists_rest_of_broken _hs
    simp only [List.length_cons, List.length_drop]
    omega

def lexemesOfText (source : String) : List Lexeme :=
  lexemesOfChars 0 source.toList

end TokenStream

end GraphQLText
