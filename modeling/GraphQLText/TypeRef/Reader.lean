import GraphQLText.TypeRef.Basic
import GraphQLText.Value.Reader

/-!
# Reading type references

A reference is a name or another reference in brackets, either with at most one mark behind it.
-/

namespace GraphQLText.TypeRef

set_option autoImplicit false

open Reader

def readUnmarked (inner : Reader TypeRef) : Reader TypeRef := do
  match ← peek with
  | some (.punctuator .openBracket) =>
    skip
    let inner ← inner
    expect (.punctuator .closeBracket) .listType
    return .list inner
  | some (.name _) => named <$> TypeName.read
  | _ => fail .type

def readTo : Nat → Reader TypeRef
  | 0 => fail .type
  | depth + 1 => do
    let unmarked ← readUnmarked (readTo depth)
    if ← eat (.punctuator .bang) then
      if ← at? (.punctuator .bang) then
        fail .nonNullType
      else
        return .nonNull unmarked
    else
      return unmarked

def read : Reader TypeRef :=
  nested readTo

end GraphQLText.TypeRef
