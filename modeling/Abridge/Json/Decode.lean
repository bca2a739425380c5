import Abridge.Json.Reader
import Abridge.Table

/-!
# Typed readings of JSON values

How the values of a document become the values of a record.  A record may be written as an object, in
which unknown members are ignored and no known one is repeated, or as an array of its fields in order.
-/

set_option autoImplicit false

namespace Abridge

namespace Json

/-- One past the greatest size. -/
def sizeLimit : Nat := Nat.pow 2 64

/-- The string itself. -/
def asString? : Json → Option String
  | .string s => some s
  | _ => none

/-- The truth value itself. -/
def asBool? : Json → Option Bool
  | .bool b => some b
  | _ => none

/-- A size: a natural number of 64 bits, written without point or exponent. -/
def asSize? : Json → Option Nat
  | .number (.integer n) => if 0 ≤ n ∧ n < sizeLimit then some n.toNat else none
  | _ => none

/-- A number of either kind as a double. -/
def asDouble? : Json → Option Double
  | .number (.integer n) => some (Double.ofInt n)
  | .number (.float x) => some x
  | _ => none

/-- The number itself, with its kind. -/
def asNumber? : Json → Option JsonNumber
  | .number n => some n
  | _ => none

/-- The items of an array, each read by the function. -/
def asList? {α : Type} (item : Json → Option α) : Json → Option (List α)
  | .array vs => vs.mapM item
  | _ => none

/-- Nothing for `null`, or a value. -/
def asOption? {α : Type} (value : Json → Option α) : Json → Option (Option α)
  | .null => some none
  | v => (value v).map some

/-- The entries of an object, each read by the function.  The last entry of a key counts and stands
where the first one stood. -/
def asTable? {α : Type} (value : Json → Option α) : Json → Option (Table String α)
  | .object ms => do
    let entries ← ms.mapM fun (k, v) => (value v).map fun a => (k, a)
    return Table.ofEntries entries
  | _ => none

/-- The fields of a record by name. -/
def record? (fields : List String) : Json → Option (String → Option Json)
  | .object ms =>
    let known := ms.filter fun m => fields.contains m.1
    if (known.map Prod.fst).eraseDups.length == known.length then
      some fun name => (known.find? fun m => m.1 == name).map Prod.snd
    else none
  | .array vs =>
    if vs.length ≤ fields.length then
      let known := fields.zip vs
      some fun name => (known.find? fun m => m.1 == name).map Prod.snd
    else none
  | _ => none

/-- A field that must be there. -/
def required? {α : Type} (fields : String → Option Json) (name : String) (value : Json → Option α) :
    Option α :=
  (fields name).bind value

/-- A field that has a default. -/
def optional? {α : Type} (fields : String → Option Json) (name : String) (value : Json → Option α)
    (default : α) : Option α :=
  match fields name with
  | some v => value v
  | none => some default

end Json

end Abridge
