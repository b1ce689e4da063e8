/-!
# Refused constructs

Constructs that a tree has no room for. A program that uses one is refused,
since its meaning would be lost otherwise.
-/

namespace PhpScript

/-- A construct that is refused. -/
inductive Unsupported
  | anonymousClasses
  | argumentUnpacking
  | arrayUnpacking
  | attributes
  | byRefArguments
  | byRefArrayItems
  | byRefBindings
  | byRefParameters
  | byRefReturns
  | classConstants
  | inheritance
  | namedArguments
  | parameterDefaults
  | propertyPromotion
  | variableVariables
  | variadicParameters
deriving DecidableEq, Repr

namespace Unsupported

/-- The construct in words. -/
def describe : Unsupported → String
  | anonymousClasses => "anonymous classes"
  | argumentUnpacking => "argument unpacking"
  | arrayUnpacking => "array unpacking"
  | attributes => "attributes"
  | byRefArguments => "by-reference arguments"
  | byRefArrayItems => "by-reference array items"
  | byRefBindings => "by-reference closure bindings"
  | byRefParameters => "by-reference parameters"
  | byRefReturns => "by-reference returns"
  | classConstants => "class constants"
  | inheritance => "class inheritance"
  | namedArguments => "named arguments"
  | parameterDefaults => "parameter default values"
  | propertyPromotion => "constructor property promotion"
  | variableVariables => "variable variables"
  | variadicParameters => "variadic parameters"

/-- Whether the words are in the singular. -/
def isSingular : Unsupported → Bool
  | argumentUnpacking | arrayUnpacking | inheritance | propertyPromotion => true
  | _ => false

/-- The refusal in words. -/
def refusal (u : Unsupported) : String :=
  u.describe ++ (if u.isSingular then " is" else " are") ++ " not supported"

end Unsupported

end PhpScript
