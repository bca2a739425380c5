import Abridge.Names.Role
import Abridge.Scope.Resolution

/-!
# Surveying a module

One walk over a module lists everything that matters for renaming, as a list of sightings in source
order; the survey collects them.  Besides the role in which each name first occurs, that is:

* names that are visible outside the module by their spelling, which are *pinned*;
* every spelling that occurs at all, which no short name may take;
* names that are used as markup tags, where the case of the first letter matters;
* whether code can reach names by spelling at run time, in which case nothing may be renamed.

Which sightings a node contributes of its own is said by `Tree.sightingsBefore` and
`Tree.sightingsAfter`; everything else is found at the leaves.
-/

set_option autoImplicit false

namespace Abridge

/-- One thing that the walk over a module notices. -/
inductive Sighting where
  /-- A name occurs in a role. -/
  | seen (name : String) (role : Role)
  /-- A name occurs, without a role of its own. -/
  | spelled (name : String)
  /-- A name is visible outside the module. -/
  | pinned (name : String)
  /-- A name is used as a markup tag. -/
  | tag (name : String)
  /-- Names can be reached by their spelling at run time. -/
  | dynamic
  deriving DecidableEq, Repr, Inhabited

namespace Sighting

/-- The sightings of a name that is visible outside the module and occurs in a role. -/
def pin (role : Role) (name : String) : List Sighting := [.seen name role, .pinned name]

/-- The sightings of several such names. -/
def pinAll (role : Role) (names : List String) : List Sighting := names.flatMap (pin role)

end Sighting

namespace Tree

/-- Whether an expression is a call of `require`, possibly in parentheses. -/
def isRequireCall (t : Tree) : Bool :=
  match t.stripParens with
  | .node (.call _) (.reference n :: _) => n == "require"
  | _ => false

/-- The sighting of a key that is a plain name. -/
def keySighting (computed : Bool) : Tree → List Sighting
  | .name n => if computed then [] else [.seen n .methodKey]
  | _ => []

/-- The name that an export specifier exports. -/
def exportedLocal : Tree → List String
  | .name n => [n]
  | .reference n => [n]
  | .quoted lit => [lit.value]
  | _ => []

/-- What a node contributes before its parts. -/
def sightingsBefore : Form → List Tree → List Sighting
  | .import _ _, ps => Sighting.pinAll .importBinding (introducedNames (.node (.import false none) ps))
  | .importEquals _, n :: _ => Sighting.pinAll .importBinding n.boundNames
  | .exportSpecifier _, l :: _ => Sighting.pinAll .other l.exportedLocal
  | .exportNamed _, d :: _ => Sighting.pinAll .declaration d.introducedNames
  | .variables _ ambient, ds => if ambient then Sighting.pinAll .declaration (declaratorNames ds) else []
  | .declarator _, [p, _, init] =>
    if init.isRequireCall then Sighting.pinAll .declaration p.boundNames else []
  | .function info, n :: _ => if info.ambient then Sighting.pinAll .declaration n.boundNames else []
  | .class info, _ :: n :: _ =>
    if info.ambient then Sighting.pinAll .declaration n.boundNames else []
  | .property info, k :: _ =>
    if !info.shorthand && (info.method || info.kind != .value) then k.keySighting info.computed else []
  | .method _ info, _ :: k :: _ => k.keySighting info.computed
  | .field info, _ :: k :: _ => if info.modifiers.accessor then [] else k.keySighting info.computed
  | .targetShorthand, .reference n :: _ => Sighting.pin .other n
  | .opening _, .reference n :: _ => [.tag n]
  | .closing, .reference n :: _ => [.tag n]
  | .call _, .reference n :: _ => if n == "eval" then [.dynamic] else []
  | .with, _ => [.dynamic]
  | _, _ => []

/-- What a node contributes after its parts. -/
def sightingsAfter : Form → List Tree → List Sighting
  | .param ms _, _ :: p :: _ =>
    if ms.access.isSome || ms.readonly || ms.override then Sighting.pinAll .declaration p.boundNames
    else []
  | .enumMember false, .name n :: _ => [.pinned n]
  | _, _ => []

/-- Whether the part at a position is walked: the parts of imports and export specifiers are not, nor
is the key of a property written in short form. -/
def isSurveyed : Form → Nat → Bool
  | .import _ _, _ => false
  | .exportSpecifier _, _ => false
  | .property info, i => !(info.shorthand && i == 0)
  | .bindingProperty shorthand _, i => !(shorthand && i == 0)
  | _, _ => true

/-- Whether a name introduced in the part at a position is a parameter. -/
def inParameters (around : Bool) : Form → Nat → Bool
  | .params, _ => true
  | .function _, 5 => false
  | .arrow _ _, 3 => false
  | _, _ => around

mutual

/-- The sightings in a tree, in source order; `params` tells whether it stands in a parameter list. -/
def sightings (params : Bool) : Tree → List Sighting
  | .binding n => [.seen n (if params then .parameter else .declaration)]
  | .reference n => [.seen n .other]
  | .name n => [.seen n .memberProperty]
  | .markupName n => [.spelled n]
  | .node f ps => sightingsBefore f ps ++ sightingsOf f params 0 ps ++ sightingsAfter f ps
  | _ => []

/-- The sightings in the parts of a node from a position on. -/
def sightingsOf (f : Form) (params : Bool) (i : Nat) : List Tree → List Sighting
  | [] => []
  | t :: ts =>
    (if isSurveyed f i then t.sightings (inParameters params f i) else []) ++
      sightingsOf f params (i + 1) ts

end

/-- The names of a top-level statement that a script shares with other scripts. -/
def globalNames : Tree → List String
  | .node (.variables _ _) ds => declaratorNames ds
  | .node (.function _) (n :: _) => n.boundNames
  | .node (.class _) (_ :: n :: _) => n.boundNames
  | _ => []

end Tree

/-- What is known about the names of a module. -/
structure Survey where
  /-- Each name with the role of its first occurrence, in order of first occurrence. -/
  firstRoles : List (String × Role) := []
  /-- Names visible outside the module, or from outside it, by their spelling. -/
  pinned : List String := []
  /-- Every spelling that occurs. -/
  namesInUse : List String := []
  /-- Names used directly as markup tags. -/
  markupTags : List String := []
  /-- Names can be reached by their spelling at run time. -/
  dynamicScope : Bool := false
  deriving DecidableEq, Repr, Inhabited

namespace Survey

/-- Adds a first role, unless the name has one. -/
def note (roles : List (String × Role)) (name : String) (role : Role) : List (String × Role) :=
  if roles.any fun r => r.1 == name then roles else roles ++ [(name, role)]

/-- The first roles among sightings. -/
def firstRolesOf (sightings : List Sighting) : List (String × Role) :=
  sightings.foldl
    (fun roles s =>
      match s with
      | .seen n r => note roles n r
      | _ => roles)
    []

/-- The pinned names among sightings. -/
def pinnedOf (sightings : List Sighting) : List String :=
  sightings.filterMap fun
    | .pinned n => some n
    | _ => none

/-- The spellings among sightings. -/
def spellingsOf (sightings : List Sighting) : List String :=
  sightings.filterMap fun
    | .seen n _ => some n
    | .spelled n => some n
    | _ => none

/-- The markup tags among sightings. -/
def tagsOf (sightings : List Sighting) : List String :=
  sightings.filterMap fun
    | .tag n => some n
    | _ => none

end Survey

/-- The sightings in a program, in source order. -/
def Program.sightings (p : Program) : List Sighting := Tree.sightingsOf .group false 0 p.statements

/-- The survey of a program.  Names that are declared nowhere in it belong to the host, and the
top-level names of a script are shared with other scripts. -/
def Program.survey (p : Program) (d : Dialect) : Survey :=
  let sightings := p.sightings
  let free := p.unresolved
  let globals := if d.module then [] else p.statements.flatMap Tree.globalNames
  { firstRoles := Survey.firstRolesOf sightings
    pinned := sortNames (Survey.pinnedOf sightings ++ free ++ globals)
    namesInUse := sortNames (Survey.spellingsOf sightings ++ free)
    markupTags := sortNames (Survey.tagsOf sightings)
    dynamicScope := sightings.contains .dynamic }

end Abridge
