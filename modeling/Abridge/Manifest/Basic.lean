import Abridge.Json.Value
import Abridge.Literal.Value
import Abridge.Names.Classifier
import Abridge.Table

/-!
# Manifests

A manifest is the record that undoes a run: every key and what it stands for, grouped by category for
names and by kind for literals, with an account of the sizes.  Its tables keep the order in which the
keys were assigned.

A key stands for one thing.  `record` refuses a second meaning within a table, and `Manifest.conflict?`
looks across all tables, because a key is undone by its spelling alone.

## What is here

* `Manifest`, with its `entries` and `entryCount`.
* `Manifest.conflict?`: the first key with two meanings.
* `Manifest.merge`: folds the manifest of a module into that of a run.  A merge that meets a conflict
  stops there and keeps what it did before.
* `Manifest.ofModule`: the manifest of one module.
-/

set_option autoImplicit false

namespace Abridge

/-! ## Sizes -/

/-- The percentage of bytes removed; zero for nothing. -/
def reductionPercent (before after : Nat) : Double :=
  if before = 0 then .zero false
  else
    let o := Double.ofNat before
    Double.mul (Double.div (Double.sub o (Double.ofNat after)) o) (Double.ofNat 100)

/-- What a run or a module saved.  Sizes have 64 bits where they are stored: sums of them are meant below
`2 ^ 64`, and `Savings.InRange` says so where it matters. -/
structure Savings where
  substitutions : Nat := 0
  sizeBefore : Nat := 0
  sizeAfter : Nat := 0
  reductionPercent : Double := .zero false
  deriving DecidableEq, Repr, Inhabited

/-- The savings for sizes and a number of substitutions. -/
def Savings.ofSizes (before after substitutions : Nat) : Savings :=
  { substitutions, sizeBefore := before, sizeAfter := after
    reductionPercent := Abridge.reductionPercent before after }

/-- The savings of two parts together. -/
def Savings.add (a b : Savings) : Savings :=
  .ofSizes (a.sizeBefore + b.sizeBefore) (a.sizeAfter + b.sizeAfter)
    (a.substitutions + b.substitutions)

/-- The account of one module in a run of several. -/
structure ModuleRecord where
  path : String
  /-- The fingerprint of the module's text before the run. -/
  sourceHash : String
  sizeBefore : Nat
  sizeAfter : Nat
  substitutions : Nat
  deriving DecidableEq, Repr, Inhabited

/-! ## Keys and meanings -/

/-- A key with two meanings. -/
structure Conflict where
  key : String
  first : String
  second : String
  deriving DecidableEq, Repr, Inhabited

/-- The wording of a conflict. -/
def Conflict.message (c : Conflict) : String :=
  "Manifest is not invertible: key `" ++ c.key ++ "` maps to both `" ++ c.first ++ "` and `" ++
    c.second ++ "`"

/-- What a table may hold: values that can be compared and written. -/
structure Kind (α : Type) where
  same : α → α → Bool
  text : α → String

/-- Texts, which stand for themselves. -/
def Kind.texts : Kind String := { same := fun a b => a == b, text := id }

/-- Numbers, which differ when their kinds do. -/
def Kind.numbers : Kind JsonNumber := { same := JsonNumber.same, text := JsonNumber.text }

/-- Records the meaning of a key; a key that is known keeps its entry and must mean the same. -/
def record {α : Type} (kind : Kind α) (table : Table String α) (key : String) (value : α) :
    Except Conflict (Table String α) :=
  match table.get? key with
  | none => .ok (table.put key value)
  | some known =>
    if kind.same known value then .ok table
    else .error { key, first := kind.text known, second := kind.text value }

/-- Records entries in order up to the first conflict, and keeps what came before it. -/
def recordAll {α : Type} (kind : Kind α) (table : Table String α) :
    List (String × α) → Table String α × Option Conflict
  | [] => (table, none)
  | (key, value) :: rest =>
    match record kind table key value with
    | .ok table => recordAll kind table rest
    | .error c => (table, some c)

/-- Names by category: each category has its own table. -/
abbrev Categories := Table String (Table String String)

/-- Records entries in a category, which comes into being when it is new. -/
def Categories.recordAll (categories : Categories) (category : String)
    (entries : List (String × String)) : Categories × Option Conflict :=
  let (table, conflict) := Abridge.recordAll Kind.texts ((categories.get? category).getD []) entries
  (categories.put category table, conflict)

/-- Merges categories in order up to the first conflict. -/
def Categories.merge (categories : Categories) :
    List (String × Table String String) → Categories × Option Conflict
  | [] => (categories, none)
  | (category, entries) :: rest =>
    match categories.recordAll category entries with
    | (categories, none) => merge categories rest
    | (categories, some c) => (categories, some c)

/-! ## Manifests -/

/-- The version that new manifests carry. -/
def manifestVersion : String := "1.0.0"

/-- The record of a run. -/
structure Manifest where
  version : String := manifestVersion
  timestamp : String
  /-- Short names and the names they stand for, by category. -/
  categories : Categories := []
  /-- Keys of hoisted strings and numbers. -/
  strings : Table String String := []
  numbers : Table String JsonNumber := []
  savings : Savings := {}
  modules : List ModuleRecord := []
  deriving Repr, Inhabited

/-- The number that a manifest records for a value: an integer for every whole number below 2⁵³ in
magnitude, a float for other finite values, nothing for the rest. -/
def JsonNumber.ofDouble? (x : Double) : Option JsonNumber :=
  match x.toInt? with
  | some n => if n.natAbs < Nat.pow 2 53 then some (.integer n) else some (.float x)
  | none => if x.isFinite then some (.float x) else none

namespace Manifest

/-- All keys with the texts of their meanings, in table order. -/
def entries (m : Manifest) : List (String × String) :=
  m.categories.flatMap (fun (_, table) => table) ++ m.strings ++
    m.numbers.map fun (key, n) => (key, n.text)

/-- The number of recorded keys. -/
def entryCount (m : Manifest) : Nat :=
  (m.categories.flatMap fun (_, table) => table).length + m.strings.length + m.numbers.length

/-- The first entry that gives a key seen before another meaning. -/
def firstConflict (seen : Table String String) : List (String × String) → Option Conflict
  | [] => none
  | (key, text) :: rest =>
    match seen.get? key with
    | none => firstConflict (seen.put key text) rest
    | some first =>
      if first == text then firstConflict seen rest else some { key, first, second := text }

/-- The first key with two meanings anywhere in the manifest. -/
def conflict? (m : Manifest) : Option Conflict := firstConflict [] m.entries

/-- Folds the manifest of a module into that of a run. -/
def merge (run other : Manifest) : Manifest × Option Conflict :=
  match run.categories.merge other.categories with
  | (categories, some c) => ({ run with categories }, some c)
  | (categories, none) =>
    let run := { run with categories }
    match recordAll Kind.texts run.strings other.strings with
    | (strings, some c) => ({ run with strings }, some c)
    | (strings, none) =>
      let run := { run with strings }
      match recordAll Kind.numbers run.numbers other.numbers with
      | (numbers, some c) => ({ run with numbers }, some c)
      | (numbers, none) =>
        let run :=
          { run with numbers
                     savings := run.savings.add other.savings
                     modules := run.modules ++ other.modules }
        (run, run.conflict?)

/-- Records a renaming. -/
def recordRenaming (m : Manifest) (r : Renaming) : Except Conflict Manifest :=
  match m.categories.recordAll r.category [(r.shortName, r.name)] with
  | (categories, none) => .ok { m with categories }
  | (_, some c) => .error c

/-- Records a hoisted literal; a number that is not finite leaves no trace. -/
def recordLiteral (m : Manifest) (key : String) : Literal → Except Conflict Manifest
  | .string s => (record Kind.texts m.strings key s).map fun strings => { m with strings }
  | .number x =>
    match JsonNumber.ofDouble? x with
    | some n => (record Kind.numbers m.numbers key n).map fun numbers => { m with numbers }
    | none => .ok m

/-- The manifest of renamings and hoisted literals, recorded in order. -/
def ofModule (timestamp : String) (renamings : List Renaming) (hoisted : List (String × Literal))
    (modules : List ModuleRecord) (savings : Savings) : Except Conflict Manifest := do
  let named ← renamings.foldlM recordRenaming { timestamp }
  let m ← hoisted.foldlM (fun m (key, value) => m.recordLiteral key value) named
  return { m with modules, savings }

end Manifest

end Abridge
