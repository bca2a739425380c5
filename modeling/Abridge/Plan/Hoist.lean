import Abridge.Literal.Value
import Abridge.Plan.Basic
import Abridge.Syntax.Parse

/-!
# The declaration of hoisted literals

The hoisted literals of a module are declared by one statement in front of all others.  Its keys stand
in a natural order: keys with the same text before their counter are ordered by the counter.

Scripts declare them with `var`, since two scripts may then share a key.
-/

set_option autoImplicit false

namespace Abridge

/-! ## The order of keys -/

/-- A key as the text before its last digits and the number of those digits, which is missing when
there are none or it does not fit 64 bits. -/
def splitKey (key : String) : String × Option Nat :=
  let reversed := key.toList.reverse
  let digits := (reversed.takeWhile Char.isDigit).reverse
  let lead := String.ofList (reversed.dropWhile Char.isDigit).reverse
  let n := digits.foldl (fun n c => 10 * n + (c.toNat - '0'.toNat)) 0
  (lead, if digits.isEmpty || n ≥ Nat.pow 2 64 then none else some n)

/-- The order of strings by code point. -/
def compareText (a b : String) : Ordering := if a < b then .lt else if a = b then .eq else .gt

/-- No number comes before any number. -/
def compareCounters : Option Nat → Option Nat → Ordering
  | none, none => .eq
  | none, some _ => .lt
  | some _, none => .gt
  | some m, some n => compare m n

/-- The natural order of keys. -/
def compareKeys (a b : String) : Ordering :=
  let (leadA, countA) := splitKey a
  let (leadB, countB) := splitKey b
  ((compareText leadA leadB).then (compareCounters countA countB)).then (compareText a b)

/-- Sorts by key, keeping the order of equal keys. -/
def sortByKey {α : Type} (key : α → String) (items : List α) : List α :=
  items.mergeSort fun a b => compareKeys (key a) (key b) != .gt

/-! ## The declaration -/

/-- Drops the entries that have the same key as the one before them; `last` is the key before the
first. -/
def dropAfter {α : Type} (last : String) : List (String × α) → List (String × α)
  | [] => []
  | e :: rest => if e.1 == last then dropAfter last rest else e :: dropAfter e.1 rest

/-- Keeps the first entry of each run of equal keys. -/
def dropRepeated {α : Type} : List (String × α) → List (String × α)
  | [] => []
  | e :: rest => e :: dropAfter e.1 rest

/-- The text of the declaration; none for no literals. -/
def declarationSource (hoisted : List (String × Literal)) (d : Dialect) : Option String :=
  if hoisted.isEmpty then none
  else
    let entries := dropRepeated (sortByKey Prod.fst hoisted)
    let bindings := entries.map fun (key, value) => key ++ "=" ++ value.source
    let word := if d.module then "const" else "var"
    some (word ++ " " ++ ",".intercalate bindings ++ ";")

/-- The program with the declaration in front of its statements; none when the declaration is
malformed. -/
def Program.hoist (p : Program) (hoisted : List (String × Literal)) (d : Dialect) :
    Option Program :=
  match declarationSource hoisted d with
  | none => some p
  | some source =>
    match Program.parse? source d with
    | none => none
    | some declaration => some { p with statements := declaration.statements ++ p.statements }

end Abridge
