import Abridge.Scope.Protected
import Abridge.Table

/-!
# Short names

A short name is a lead followed by a counter.  One allocator serves a whole run: each lead has a
counter of its own, and a candidate that is spelled anywhere in the run, is protected, or was given
out before is passed over.

The search for the next name cannot fail: different counters give different names, and only finitely
many names are ruled out (`ShortNames.bound`).
-/

set_option autoImplicit false

namespace Abridge

/-- The state of the allocator. -/
structure ShortNames where
  /-- The next counter of each lead; a lead that is not listed starts at zero. -/
  counters : Table String Nat := []
  /-- The names given out. -/
  taken : List String := []
  /-- The spellings that occur in the run. -/
  inUse : List String := []
  deriving Repr, Inhabited

namespace ShortNames

/-- The name with a lead and a counter. -/
def candidate (lead : String) (n : Nat) : String := lead ++ toString n

/-- Whether a name may be given out. -/
def isFree (s : ShortNames) (name : String) : Bool :=
  !s.taken.contains name && !s.inUse.contains name && !isProtectedName name

/-- The next counter of a lead. -/
def counter (s : ShortNames) (lead : String) : Nat := (s.counters.get? lead).getD 0

/-- More than the number of names that are ruled out. -/
def bound (s : ShortNames) : Nat :=
  s.taken.length + s.inUse.length + reservedNames.length + hostGlobals.length +
    libraryGlobals.length + 1

/-- The first counter from `n` on whose name is free. -/
def search (s : ShortNames) (lead : String) : Nat → Nat → Nat
  | 0, n => n
  | fuel + 1, n => if s.isFree (candidate lead n) then n else search s lead fuel (n + 1)

/-- Gives out the next free name of a lead. -/
def next (s : ShortNames) (lead : String) : String × ShortNames :=
  let n := s.search lead s.bound (s.counter lead)
  let name := candidate lead n
  (name, { s with counters := s.counters.put lead (n + 1), taken := name :: s.taken })

end ShortNames

end Abridge
