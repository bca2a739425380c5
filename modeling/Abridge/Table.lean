/-!
# Ordered tables

A table is a list of entries, in the order in which their keys first came in.  `put` keeps at most one
entry for each key, and a table that was built with it is also the document that is written to disk:
the order of the entries is part of it.
-/

set_option autoImplicit false

namespace Abridge

/-- A table from keys to values. -/
abbrev Table (κ α : Type) := List (κ × α)

namespace Table

variable {κ α : Type} [BEq κ]

/-- The value of a key; of several entries the first counts. -/
def get? (table : Table κ α) (key : κ) : Option α :=
  (List.find? (fun e => e.1 == key) table).map Prod.snd

/-- Whether a key has an entry. -/
def has (table : Table κ α) (key : κ) : Bool := (table.get? key).isSome

/-- Sets the value of a key: a new key comes last, a known one keeps its place. -/
def put (table : Table κ α) (key : κ) (value : α) : Table κ α :=
  match table with
  | [] => [(key, value)]
  | (k, v) :: rest => if k == key then (k, value) :: rest else (k, v) :: put rest key value

/-- The table without a key. -/
def erase (table : Table κ α) (key : κ) : Table κ α := List.filter (fun e => !(e.1 == key)) table

/-- The table of entries that are put in one after the other. -/
def ofEntries (entries : List (κ × α)) : Table κ α :=
  entries.foldl (fun table e => put table e.1 e.2) []

end Table

end Abridge
