import GraphQLText.Reader.Basic
import GraphQLText.Value.Basic

/-!
# Reading values

A value is told from its first token. In a constant place no variable may stand, at any depth.
-/

namespace GraphQLText

set_option autoImplicit false

open Reader

/-- Whether a name can be an enum value: the names of the other values cannot. -/
def isEnumName (name : String) : Bool :=
  !(name == "true" || name == "false" || name == "null")

def TypeName.read : Reader TypeName :=
  located do
    let name ← nameToken .typeName
    return fun span => { name, span }

def Variable.read : Reader Variable :=
  located do
    expect (.punctuator .dollar) .variable
    let name ← nameToken .variable
    return fun span => { name, span }

def BooleanValue.read : Reader BooleanValue :=
  located do
    let value ← token .boolean fun
      | .name "true" => some true
      | .name "false" => some false
      | _ => none
    return fun span => { value, span }

def StringValue.read : Reader StringValue :=
  located do
    let (value, block) ← token .string fun
      | .string value => some (value, false)
      | .blockString value => some (value, true)
      | _ => none
    return fun span => { value, block, span }

namespace Literal

def readInt : Reader Literal :=
  located do
    let text ← token .int fun
      | .int text => some text
      | _ => none
    return fun span => { text, span }

def readFloat : Reader Literal :=
  located do
    let text ← token .float fun
      | .float text => some text
      | _ => none
    return fun span => { text, span }

def readEnum : Reader Literal :=
  located do
    let text ← token .enum fun
      | .name name => if isEnumName name then some name else none
      | _ => none
    return fun span => { text, span }

end Literal

def NamedValue.read {ν : Type} (expected : Construct) (value : Reader ν) :
    Reader (NamedValue ν) :=
  located do
    let name ← nameToken expected
    expect (.punctuator .colon) expected
    let value ← value
    return fun span => { name, value, span }

/-- Reads items between two tokens, both of which must be there. -/
def Bracketed.read {α : Type} (opening close : Punctuator) (expected : Construct)
    (item : Reader α) : Reader (Bracketed α) :=
  located do
    expect (.punctuator opening) expected
    let items ← untilClosed close item
    return fun span => { items, span }

namespace Value

def readListOf (value : Reader Value) : Reader ListValue :=
  Bracketed.read .openBracket .closeBracket .list value

def readObjectOf (value : Reader Value) : Reader ObjectValue :=
  Bracketed.read .openBrace .closeBrace .object (NamedValue.read .objectField value)

/-- Reads a value in which lists and objects lie less deep than the bound. -/
def readTo (constant : Bool) : Nat → Reader Value
  | 0 => fail .value
  | depth + 1 => do
    match ← peek with
    | some (.name "null") =>
      skip
      return .null
    | some (.name "true") | some (.name "false") => boolean <$> BooleanValue.read
    | some (.name _) => enum <$> Literal.readEnum
    | some (.punctuator .dollar) =>
      if constant then fail .constantValue else .variable <$> Variable.read
    | some (.float _) => float <$> Literal.readFloat
    | some (.int _) => int <$> Literal.readInt
    | some (.string _) | some (.blockString _) => string <$> StringValue.read
    | some (.punctuator .openBracket) => list <$> readListOf (readTo constant depth)
    | some (.punctuator .openBrace) => object <$> readObjectOf (readTo constant depth)
    | _ => fail .value

def read (constant : Bool) : Reader Value :=
  nested (readTo constant)

end Value

def ListValue.read (constant : Bool) : Reader ListValue :=
  Value.readListOf (Value.read constant)

def ObjectValue.read (constant : Bool) : Reader ObjectValue :=
  Value.readObjectOf (Value.read constant)

def ObjectField.read (constant : Bool) : Reader ObjectField :=
  NamedValue.read .objectField (Value.read constant)

def Argument.read (constant : Bool) : Reader Argument :=
  NamedValue.read .argument (Value.read constant)

def Argument.readAll (constant : Bool) : Reader (List Argument) :=
  enclosed .openParen .closeParen (Argument.read constant)

def Value.readDefault? : Reader (Option Value) :=
  behind? (.punctuator .equals) (Value.read true)

end GraphQLText
