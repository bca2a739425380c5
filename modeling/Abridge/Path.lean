/-!
# Paths

A path is a text, and it means the sequence of its components: empty parts and dots between slashes
do not count, except for a dot at the very start.  Two paths are ordered by their components, so that
everything below a directory stands together.

## What is here

* `Path.components` and `Path.compare`.
* `Path.fileName?`, `Path.stem`, `Path.extension?`: the parts of the last name.
* `Path.parent?`, `Path.join`, `Path.withFileName`: the paths around a path.
-/

set_option autoImplicit false

namespace Abridge

/-- A path as it is written. -/
structure Path where
  text : String
  deriving DecidableEq, Repr, Inhabited

/-- A step of a path. -/
inductive Component where
  | root
  | here
  | up
  | name (text : String)
  deriving DecidableEq, Repr, Inhabited

namespace Component

/-- The rank of a kind of step. -/
def rank : Component → Nat
  | root => 0
  | here => 1
  | up => 2
  | name _ => 3

/-- Steps are ordered by kind, names among themselves by code point. -/
def compare : Component → Component → Ordering
  | .name a, .name b => if a < b then .lt else if a = b then .eq else .gt
  | a, b => Ord.compare a.rank b.rank

end Component

namespace Path

/-! ## Components -/

/-- The parts between slashes, empty ones included. -/
def splitSlashes : List Char → List (List Char)
  | [] => [[]]
  | '/' :: cs => [] :: splitSlashes cs
  | c :: cs =>
    match splitSlashes cs with
    | [] => [[c]]
    | part :: parts => (c :: part) :: parts

/-- The step of a part that is not at the start; empty parts and dots are none. -/
def step? (part : List Char) : Option Component :=
  match part with
  | [] => none
  | ['.'] => none
  | ['.', '.'] => some .up
  | cs => some (.name (String.ofList cs))

/-- Whether the path starts at the root. -/
def isAbsolute (p : Path) : Bool := p.text.toList.head? == some '/'

/-- The steps of a path. -/
def components (p : Path) : List Component :=
  match splitSlashes p.text.toList with
  | ['.'] :: parts => .here :: parts.filterMap step?
  | parts => (if p.isAbsolute then [.root] else []) ++ parts.filterMap step?

/-- Compares lists of steps one by one; what ends first comes first. -/
def compareSteps : List Component → List Component → Ordering
  | [], [] => .eq
  | [], _ :: _ => .lt
  | _ :: _, [] => .gt
  | a :: as, b :: bs => (a.compare b).then (compareSteps as bs)

/-- The order of paths. -/
def compare (p q : Path) : Ordering := compareSteps p.components q.components

/-- Sorts by path, keeping the order of equal paths. -/
def sortBy {α : Type} (path : α → Path) (items : List α) : List α :=
  items.mergeSort fun a b => (path a).compare (path b) != .gt

/-! ## The last name -/

/-- The last name, if the path ends in one. -/
def fileName? (p : Path) : Option String :=
  match p.components.getLast? with
  | some (.name text) => some text
  | _ => none

/-- A name split at its last dot; a dot at the start does not count. -/
def splitName (name : String) : String × Option String :=
  let reversed := name.toList.reverse
  match reversed.dropWhile (· != '.') with
  | [] => (name, none)
  | [_] => (name, none)
  | _ :: stem =>
    (String.ofList stem.reverse, some (String.ofList (reversed.takeWhile (· != '.')).reverse))

/-- The last name without its extension; empty when the path ends in no name. -/
def stem (p : Path) : String := (p.fileName?.map fun name => (splitName name).1).getD ""

/-- The extension of the last name. -/
def extension? (p : Path) : Option String := p.fileName?.bind fun name => (splitName name).2

/-! ## Paths around a path -/

/-- The number of characters before the steps that can be taken off: the slash of the root, or a dot
at the start. -/
def fixedLength (cs : List Char) : Nat :=
  match cs with
  | '/' :: _ => 1
  | ['.'] => 1
  | '.' :: '/' :: _ => 1
  | _ => 0

/-- Takes parts that are no steps off the end, at most as many as given.  The text is reversed. -/
def trimEnd (fixed : Nat) : Nat → List Char → List Char
  | 0, reversed => reversed
  | fuel + 1, reversed =>
    if reversed.length ≤ fixed then reversed
    else
      let body := reversed.take (reversed.length - fixed)
      let part := body.takeWhile (· != '/')
      if (step? part.reverse).isSome then reversed
      else trimEnd fixed fuel (reversed.drop (part.length + (if part.length < body.length then 1 else 0)))

/-- The path without its last step; none for the root and the empty path. -/
def parent? (p : Path) : Option Path :=
  let cs := p.text.toList
  let fixed := fixedLength cs
  let trimmed := trimEnd fixed cs.length cs.reverse
  if fixed < trimmed.length then
    let body := trimmed.take (trimmed.length - fixed)
    let part := body.takeWhile (· != '/')
    let rest := trimmed.drop (part.length + (if part.length < body.length then 1 else 0))
    some ⟨String.ofList (trimEnd fixed cs.length rest).reverse⟩
  else if fixed = 1 && cs.head? == some '.' then some ⟨""⟩
  else none

/-- The path with another one below it; an absolute one replaces it. -/
def join (p : Path) (below : String) : Path :=
  match below.toList with
  | '/' :: _ => ⟨below⟩
  | _ =>
    match p.text.toList.getLast? with
    | none => ⟨below⟩
    | some '/' => ⟨p.text ++ below⟩
    | some _ => ⟨p.text ++ "/" ++ below⟩

/-- The path with another last name; a path that ends in no name is extended by it. -/
def withFileName (p : Path) (name : String) : Path :=
  match p.fileName? with
  | none => p.join name
  | some _ => ((p.parent?).getD ⟨""⟩).join name

/-- The directory that a path lies in, which is the current one when the path does not say. -/
def directory (p : Path) : Path :=
  match p.parent? with
  | some parent => if parent.text.isEmpty then ⟨"."⟩ else parent
  | none => ⟨"."⟩

/-- The path with a text right behind it. -/
def append (p : Path) (suffix : String) : Path := ⟨p.text ++ suffix⟩

end Path

end Abridge
