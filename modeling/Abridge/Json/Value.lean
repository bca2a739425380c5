import Abridge.Number.Text
import Abridge.Text.Hex

/-!
# JSON values

The documents that this library reads and writes: profiles and manifests.  A number keeps its kind,
because an integer and a float of the same value are different entries of a manifest.  The members of
an object keep their order and are not merged, so that a reader can tell a repeated field from a
single one.

## What is here

* `Json`: the values.
* `Json.compact` and `Json.pretty`: the two layouts, without blanks and with two-space indentation.
* `Json.quote`: the text of a string, which is also how a hoisted string is declared.
-/

set_option autoImplicit false

namespace Abridge

/-- A number of a document: an integer, or a float with a point or an exponent. -/
inductive JsonNumber where
  | integer (value : Int)
  | float (value : Double)
  deriving DecidableEq, Repr, Inhabited

/-- A JSON value. -/
inductive Json where
  | null
  | bool (value : Bool)
  | number (value : JsonNumber)
  | string (value : String)
  | array (items : List Json)
  | object (members : List (String × Json))
  deriving Repr, Inhabited

/-- The text of a number.  A float that is not finite has none and is written as `null`. -/
def JsonNumber.text : JsonNumber → String
  | .integer n => toString n
  | .float x => x.jsonText.getD "null"

/-- Equality of numbers: kinds differ, and floats compare by value. -/
def JsonNumber.same : JsonNumber → JsonNumber → Bool
  | .integer a, .integer b => a == b
  | .float a, .float b => a.eq b
  | _, _ => false

namespace Json

/-! ## Strings -/

/-- The characters that stand for one character inside a string. -/
def escape (c : Char) : List Char :=
  match c with
  | '"' => ['\\', '"']
  | '\\' => ['\\', '\\']
  | '\n' => ['\\', 'n']
  | '\r' => ['\\', 'r']
  | '\t' => ['\\', 't']
  | c =>
    if c.toNat = 8 then ['\\', 'b']
    else if c.toNat = 12 then ['\\', 'f']
    else if c.toNat < 32 then
      ['\\', 'u', '0', '0', Text.hexDigit (c.toNat / 16), Text.hexDigit (c.toNat % 16)]
    else [c]

/-- The text of a string: only quotes, backslashes and control characters are escaped. -/
def quote (s : String) : String := String.ofList ('"' :: (s.toList.flatMap escape ++ ['"']))

/-! ## Layouts -/

mutual

/-- The text of a value without blanks. -/
def compact : Json → String
  | .null => "null"
  | .bool b => if b then "true" else "false"
  | .number n => n.text
  | .string s => quote s
  | .array items => "[" ++ compactItems items ++ "]"
  | .object members => "\x7b" ++ compactMembers members ++ "\x7d"

/-- The items of an array, separated by commas. -/
def compactItems : List Json → String
  | [] => ""
  | [v] => v.compact
  | v :: vs => v.compact ++ "," ++ compactItems vs

/-- The members of an object, separated by commas. -/
def compactMembers : List (String × Json) → String
  | [] => ""
  | [(k, v)] => quote k ++ ":" ++ v.compact
  | (k, v) :: ms => quote k ++ ":" ++ v.compact ++ "," ++ compactMembers ms

end

/-- A new line, indented to a depth. -/
def newline (depth : Nat) : String := "\n" ++ Double.copies (2 * depth) ' '

mutual

/-- The text of a value at an indentation depth, one item or member to a line; empty arrays and
objects stay closed. -/
def prettyAt (depth : Nat) : Json → String
  | .array [] => "[]"
  | .array items => "[" ++ prettyItems (depth + 1) items ++ newline depth ++ "]"
  | .object [] => "\x7b\x7d"
  | .object members => "\x7b" ++ prettyMembers (depth + 1) members ++ newline depth ++ "\x7d"
  | .null => "null"
  | .bool b => if b then "true" else "false"
  | .number n => n.text
  | .string s => quote s

/-- The items of an array, each on its own line. -/
def prettyItems (depth : Nat) : List Json → String
  | [] => ""
  | [v] => newline depth ++ prettyAt depth v
  | v :: vs => newline depth ++ prettyAt depth v ++ "," ++ prettyItems depth vs

/-- The members of an object, each on its own line. -/
def prettyMembers (depth : Nat) : List (String × Json) → String
  | [] => ""
  | [(k, v)] => newline depth ++ quote k ++ ": " ++ prettyAt depth v
  | (k, v) :: ms => newline depth ++ quote k ++ ": " ++ prettyAt depth v ++ "," ++ prettyMembers depth ms

end

/-- The text of a value with two-space indentation. -/
def pretty (v : Json) : String := prettyAt 0 v

/-! ## Members -/

/-- The members of an object; any other value has none. -/
def members : Json → List (String × Json)
  | .object ms => ms
  | _ => []

/-- The value of a member; of several with one name the last. -/
def field? (v : Json) (name : String) : Option Json :=
  (v.members.reverse.find? fun m => m.1 == name).map Prod.snd

end Json

end Abridge
