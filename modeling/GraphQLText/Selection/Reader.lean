import GraphQLText.Directive.Reader
import GraphQLText.Selection.Basic

/-!
# Reading selections

A selection that begins with an ellipsis is told from the token behind it: a name other than `on`
spreads a fragment, and anything else that may follow begins an inline one.
-/

namespace GraphQLText

set_option autoImplicit false

open Reader

/-- Reads the selections in a pair of braces. There may be none, but not between braces. -/
def SelectionSet.readOf (selection : Reader Selection) : Reader SelectionSet := do
  if ← at? (.punctuator .openBrace) then
    located do
      let items ← enclosed .openBrace .closeBrace selection
      return fun span => { items, span }
  else
    return Bracketed.absent

def SelectionSet.readBodyOf (expected : Construct) (selection : Reader Selection) :
    Reader SelectionSet := do
  if ← at? (.punctuator .openBrace) then
    SelectionSet.readOf selection
  else
    fail expected

def Field.readOf (selection : Reader Selection) : Reader Field :=
  located do
    let first ← nameToken .field
    let second ← behind? (.punctuator .colon) (nameToken .field)
    let arguments ← Argument.readAll false
    let directives ← Directive.readAll false
    let selections ← SelectionSet.readOf selection
    return fun span =>
      { aliasName := second.map fun _ => first
        name := second.getD first
        arguments, directives, selections, span }

/-- Reads a fragment spread. Its ellipsis may have been read before. -/
def FragmentSpread.read : Reader FragmentSpread :=
  located do
    let _ ← eat (.punctuator .ellipsis)
    if ← at? (.name "on") then
      fail .fragmentSpread
    else
      let name ← relabel .fragmentSpread TypeName.read
      let directives ← Directive.readAll false
      return fun span => { name, directives, span }

/-- Reads an inline fragment whose selections are read as given. Its ellipsis may have been read
before. -/
def InlineFragment.readOf (selection : Reader Selection) : Reader InlineFragment :=
  located do
    let _ ← eat (.punctuator .ellipsis)
    let typeCondition ← behind? (.name "on") TypeName.read
    let directives ← Directive.readAll false
    let selections ← SelectionSet.readBodyOf .inlineFragment selection
    return fun span => { typeCondition, directives, selections, span }

namespace Selection

def readFragmentOf (selection : Reader Selection) : Reader Selection :=
  located do
    skip
    match ← peek with
    | some (.punctuator .atSign) | some (.punctuator .openBrace) | some (.name "on") =>
      let fragment ← InlineFragment.readOf selection
      return fun span => .inline { fragment with span }
    | some (.name _) =>
      let spread ← FragmentSpread.read
      return fun span => .spread { spread with span }
    | _ => fail .selection

def readTo : Nat → Reader Selection
  | 0 => fail .selection
  | depth + 1 => do
    match ← peek with
    | some (.name _) => field <$> Field.readOf (readTo depth)
    | some (.punctuator .ellipsis) => readFragmentOf (readTo depth)
    | _ => fail .selection

def read : Reader Selection :=
  nested readTo

end Selection

def Field.read : Reader Field :=
  Field.readOf Selection.read

def InlineFragment.read : Reader InlineFragment :=
  InlineFragment.readOf Selection.read

def SelectionSet.read : Reader SelectionSet :=
  SelectionSet.readOf Selection.read

end GraphQLText
