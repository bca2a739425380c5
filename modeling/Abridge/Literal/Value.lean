import Abridge.Json.Value

/-!
# Literal values

The strings and numbers that can be hoisted.  Two literals share a key exactly when they have the same
identity; the kind is part of it, so that the string `5` and the number `5` stay apart.
-/

set_option autoImplicit false

namespace Abridge

/-- The value of a literal. -/
inductive Literal where
  | string (value : String)
  | number (value : Double)
  deriving DecidableEq, Repr, Inhabited

namespace Literal

/-- The identity of a value within a run. -/
def identity : Literal → String
  | .string s => "s:" ++ s
  | .number x => "n:" ++ x.display

/-- The value as it is written in a declaration. -/
def source : Literal → String
  | .string s => Json.quote s
  | .number x => x.display

/-- The length that counts for the savings of hoisting. -/
def length : Literal → Nat
  | .string s => s.length
  | .number x => x.display.length

/-- Whether the value is a string. -/
def isString : Literal → Bool
  | .string _ => true
  | .number _ => false

end Literal

end Abridge
