import Abridge.Scope.Declared

/-!
# Resolving names

Every name that is introduced or used in a program belongs to the innermost scope that declares it, or
to none.  A scope is identified by the path from the root of the tree to the node that opens it, so
that two occurrences mean the same declaration exactly when they have the same spelling and the same
scope.

The rules are all in one place: `scopeOf` says which names a form declares for each of its parts, and
`useOf` says what a reference directly in a part wants.  The walk itself knows nothing of forms.

## What is here

* `Frame`, `Env`: a scope with its names, and the scopes around a place.
* `Occurrence`: a name that is introduced or used, with the scope it belongs to.
* `Tree.occurrences`: all occurrences in a tree, in source order.
-/

set_option autoImplicit false

namespace Abridge

/-- The place of a node: the positions of its ancestors among their siblings, innermost first. -/
abbrev Spot := List Nat

/-- A scope: where it was opened and what it declares. -/
structure Frame where
  scope : Spot
  names : List Declared
  deriving DecidableEq, Repr, Inhabited

/-- The scopes around a place, innermost first. -/
abbrev Env := List Frame

/-- Whether a scope declares a name for a use. -/
def Frame.declares (frame : Frame) (name : String) (use : Use) : Bool :=
  frame.names.any fun (n, nature) => n == name && nature.supports use

/-- The scope that a name belongs to. -/
def Env.find? (env : Env) (name : String) (use : Use) : Option Spot :=
  (List.find? (fun frame => frame.declares name use) env).map Frame.scope

/-! ## The scopes that forms open -/

/-- The names of a parameter list and its type parameters. -/
def signatureScope (typeParams params : Tree) : List Declared :=
  Tree.withNature .type typeParams.typeParamNames ++ Tree.withNature .value params.allParamNames

/-- The names that a form declares for its part at a position, when it opens a scope there. -/
def scopeOf : Form → List Tree → Nat → Option (List Declared)
  | .function _, [_, tps, _, ps, _, body], i =>
    if i = 0 then none
    else if i < 5 then some (signatureScope tps ps)
    else some (signatureScope tps ps ++ body.bodyScope)
  | .arrow _ _, [tps, ps, _, body], i =>
    if i < 3 then some (signatureScope tps ps)
    else some (signatureScope tps ps ++ body.bodyScope)
  | .class info, (_ :: n :: tps :: _), i =>
    if i = 0 || (i = 1 && !info.expression) then none
    else
      some (Tree.withNature .type tps.typeParamNames ++
        if info.expression then Tree.withNature .both n.boundNames else [])
  | .block, ss, _ => some (Tree.allDeclared ss)
  | .moduleBlock, ss, _ => some (Tree.functionScope ss)
  | .staticBlock, ss, _ => some (Tree.functionScope ss)
  | .for, left :: _, _ => some left.declared
  | .forIn, left :: _, _ => some left.declared
  | .forOf _, left :: _, _ => some left.declared
  | .switch, _ :: cases, i => if i = 0 then none else some (Tree.allDeclared (Tree.caseStatements cases))
  | .catch, p :: _, _ => some (Tree.withNature .value p.boundNames)
  | .typeAlias _, _ :: tps :: _, i =>
    if i = 0 then none else some (Tree.withNature .type tps.typeParamNames)
  | .interface _, _ :: tps :: _, i =>
    if i = 0 then none else some (Tree.withNature .type tps.typeParamNames)
  | .conditionalType, _ :: bound :: _, i =>
    if i = 1 || i = 2 then some (Tree.withNature .type bound.inferredNames) else none
  | .mappedType _ _, key :: _, _ => some (Tree.withNature .type key.boundNames)
  | .functionType, tps :: _ :: ps :: _, _ => some (signatureScope tps ps)
  | .constructorType _, tps :: ps :: _, _ => some (signatureScope tps ps)
  | .methodSignature _ _ _, _ :: tps :: _ :: ps :: _, i =>
    if i = 0 then none else some (signatureScope tps ps)
  | .callSignature, tps :: _ :: ps :: _, _ => some (signatureScope tps ps)
  | .constructSignature, tps :: ps :: _, _ => some (signatureScope tps ps)
  | .enum _ _, [_, .node .group ms], i =>
    if i = 0 then none else some (Tree.withNature .both (Tree.memberNames ms))
  | .namespace _ _, [_, body], i => if i = 0 then none else some body.declared
  | _, _, _ => none

/-- The name of a function expression, which is visible only inside it. -/
def ownName : Form → List Tree → List Declared
  | .function info, n :: _ => if info.role == .expression then Tree.withNature .value n.boundNames else []
  | _, _ => []

/-- The scopes around the part at a position of the node at a place. -/
def Env.inside (env : Env) (f : Form) (ps : List Tree) (spot : Spot) (i : Nat) : Env :=
  let env := match ownName f ps with
    | [] => env
    | names => ⟨0 :: spot, names⟩ :: env
  match scopeOf f ps i with
  | some names => ⟨spot, names⟩ :: env
  | none => env

/-! ## The uses that forms make of names -/

/-- What a reference that is itself the part at a position wants, in a node that wants `use`. -/
def useOf (use : Use) : Form → Nat → Use
  | .typeRef, 0 => .type
  | .heritage, 0 => .type
  | .typeQuery, 0 => .query
  | .qualified, 0 => if use == .type then .space else use
  | .exportSpecifier _, 0 => .any
  | .exportDefault, 0 => .any
  | .exportAssignment, 0 => .any
  | .importEquals _, 1 => .any
  | _, _ => .value

/-! ## Occurrences -/

/-- A name that is introduced or used at a place, with the scope it belongs to. -/
structure Occurrence where
  place : Spot
  name : String
  introduces : Bool
  scope : Option Spot
  deriving DecidableEq, Repr, Inhabited

namespace Tree

mutual

/-- The occurrences in a tree that stands at a place, in source order. -/
def occurrences (env : Env) (use : Use) (spot : Spot) : Tree → List Occurrence
  | .binding n => [⟨spot, n, true, env.find? n .any⟩]
  | .reference n => [⟨spot, n, false, env.find? n use⟩]
  | .node f ps => occurrencesOf f ps env use spot 0 ps
  | _ => []

/-- The occurrences in the parts of a node from a position on. -/
def occurrencesOf (f : Form) (all : List Tree) (env : Env) (use : Use) (spot : Spot) (i : Nat) :
    List Tree → List Occurrence
  | [] => []
  | t :: ts =>
    t.occurrences (env.inside f all spot i) (useOf use f i) (i :: spot) ++
      occurrencesOf f all env use spot (i + 1) ts

end

end Tree

/-! ## Programs -/

/-- The scope of a whole program. -/
def Program.topFrame (p : Program) : Frame := ⟨[], Tree.functionScope p.statements⟩

/-- The occurrences in a program, in source order. -/
def Program.occurrences (p : Program) : List Occurrence :=
  Tree.occurrencesOf .group p.statements [p.topFrame] .value [] 0 p.statements

/-- Sorts names by code point and drops repetitions. -/
def sortNames (names : List String) : List String :=
  (names.eraseDups).mergeSort fun a b => decide (a ≤ b)

/-- The names that are used in a program and declared nowhere around their use. -/
def Program.unresolved (p : Program) : List String :=
  sortNames (p.occurrences.filterMap fun o =>
    if !o.introduces && o.scope.isNone then some o.name else none)

end Abridge
