import Abridge.Plan.Basic

/-!
# Applying a plan

A plan changes leaves and nothing else: a name that it renames is respelled wherever it is introduced
or used, and a literal at one of its sites becomes a reference to its key.  A property written in
short form is then written out when its key no longer equals its value.

The number of changed leaves is counted by a function of its own, so that both halves can be read
separately.
-/

set_option autoImplicit false

namespace Abridge

namespace ModulePlan

/-- The spelling of a name under the plan. -/
def rename (plan : ModulePlan) (name : String) : String := (plan.renames.get? name).getD name

/-- One when the plan renames the name. -/
def renameCount (plan : ModulePlan) (name : String) : Nat := if plan.renames.has name then 1 else 0

/-- What stands at the place of a literal under the plan. -/
def replace (plan : ModulePlan) (site : Nat) (literal : Tree) : Tree :=
  match plan.sites.get? site with
  | some key => .reference key
  | none => literal

/-- One when the plan replaces the literal at a place. -/
def replaceCount (plan : ModulePlan) (site : Nat) : Nat := if plan.sites.has site then 1 else 0

end ModulePlan

/-- Whether a short form still says what it said: its key equals the name of its value. -/
def staysShort (key value : Tree) : Bool :=
  match key, value with
  | .name k, .reference n => k == n
  | .name k, .binding n => k == n
  | .name k, .node .defaulted (.binding n :: _) => k == n
  | _, .reference _ => false
  | _, .binding _ => false
  | _, .node .defaulted (.binding _ :: _) => false
  | _, _ => true

/-- The form of a node after a plan has been applied to its parts. -/
def Form.settle : Form → List Tree → Form
  | .property info, [k, v] =>
    .property { info with shorthand := info.shorthand && staysShort k v }
  | .bindingProperty shorthand computed, [k, v] =>
    .bindingProperty (shorthand && staysShort k v) computed
  | f, _ => f

namespace Tree

mutual

/-- The tree under a plan. -/
def apply (plan : ModulePlan) : Tree → Tree
  | .binding n => .binding (plan.rename n)
  | .reference n => .reference (plan.rename n)
  | .string lit => plan.replace lit.start (.string lit)
  | .number lit => plan.replace lit.start (.number lit)
  | .node f ps =>
    let ps' := applyAll plan ps
    .node (f.settle ps') ps'
  | t => t

/-- The trees under a plan. -/
def applyAll (plan : ModulePlan) : List Tree → List Tree
  | [] => []
  | t :: ts => t.apply plan :: applyAll plan ts

end

mutual

/-- The number of leaves that a plan changes. -/
def substitutions (plan : ModulePlan) : Tree → Nat
  | .binding n => plan.renameCount n
  | .reference n => plan.renameCount n
  | .string lit => plan.replaceCount lit.start
  | .number lit => plan.replaceCount lit.start
  | .node _ ps => substitutionsOf plan ps
  | _ => 0

/-- The number of leaves that a plan changes in trees. -/
def substitutionsOf (plan : ModulePlan) : List Tree → Nat
  | [] => 0
  | t :: ts => t.substitutions plan + substitutionsOf plan ts

end

end Tree

namespace Program

/-- The program under a plan. -/
def apply (p : Program) (plan : ModulePlan) : Program :=
  { p with statements := Tree.applyAll plan p.statements }

/-- The number of occurrences that a plan changes. -/
def substitutions (p : Program) (plan : ModulePlan) : Nat :=
  Tree.substitutionsOf plan p.statements

end Program

end Abridge
