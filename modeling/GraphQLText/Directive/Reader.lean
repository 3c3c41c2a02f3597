import GraphQLText.Directive.Basic
import GraphQLText.Value.Reader

/-!
# Reading directives
-/

namespace GraphQLText.Directive

set_option autoImplicit false

open Reader

def read (constant : Bool) : Reader Directive :=
  located do
    expect (.punctuator .atSign) .directive
    let name ← nameToken .directive
    let arguments ← Argument.readAll constant
    return fun span => { name, arguments, span }

def readAll (constant : Bool) : Reader (List Directive) :=
  whileMore (at? (.punctuator .atSign)) (read constant)

end GraphQLText.Directive
