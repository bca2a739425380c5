import Abridge.Literal.Table
import Abridge.Names.Classifier

/-!
# Planning a run

A run shortens several modules at once and shares one set of short names among them.  Each module is
analysed on its own; the planner then goes through the analyses in order and decides what every module
renames and hoists.  A plan is plain data: applying it takes no further decision.

## What is here

* `Analysis`: what a plan for a module is based on.
* `ModulePlan`: what happens to one module.
* `Planner`: the state that the modules of a run share, and `planModule`, one step of it.
-/

set_option autoImplicit false

namespace Abridge

/-- What is known about one module of a run. -/
structure Analysis where
  survey : Survey := {}
  literals : LiteralTable := []
  deriving Repr, Inhabited

/-- The analysis of a program. -/
def Program.analyse (p : Program) (d : Dialect) (profile : Profile) : Analysis :=
  { survey := p.survey d, literals := p.literalTable profile }

/-- What happens to one module. -/
structure ModulePlan where
  /-- Names and their short names. -/
  renames : Table String String := []
  /-- Places of literals and the keys that replace them. -/
  sites : Table Nat String := []
  /-- The keys to declare, with their values. -/
  hoisted : List (String × Literal) := []
  /-- The renamings in force, in order. -/
  renamings : List Renaming := []
  deriving Repr, Inhabited

/-- Whether the plan leaves every occurrence as it is. -/
def ModulePlan.isEmpty (plan : ModulePlan) : Bool := plan.renames.isEmpty && plan.sites.isEmpty

/-- What the modules of a run share. -/
structure Planner where
  classifier : Classifier := {}
  short : ShortNames := {}
  /-- The keys of literals by their identity. -/
  literalKeys : Table String String := []
  deriving Repr, Inhabited

namespace Planner

/-- The planner of a run over the analyses given, which are all of its modules: a short name must not
be spelled in any of them. -/
def start (analyses : List Analysis) : Planner :=
  { short := { inUse := analyses.flatMap fun a => a.survey.namesInUse } }

/-- Decides on one name of a module. -/
def planName (p : CompiledProfile) (survey : Survey) (state : ModulePlan × Planner)
    (entry : String × Role) : ModulePlan × Planner :=
  let (plan, planner) := state
  match planner.classifier.bind planner.short p survey entry.1 entry.2 with
  | (some r, classifier, short) =>
    ({ plan with renames := plan.renames.put r.name r.shortName
                 renamings := plan.renamings ++ [r] },
      { planner with classifier, short })
  | (none, classifier, short) => (plan, { planner with classifier, short })

/-- The key of a literal value, made when the run has none yet. -/
def keyOf (p : CompiledProfile) (planner : Planner) (value : Literal) : String × Planner :=
  match planner.literalKeys.get? value.identity with
  | some key => (key, planner)
  | none =>
    let lead := if value.isString then p.profile.stringLead else p.profile.numberLead
    let (key, short) := planner.short.next lead
    (key, { planner with short, literalKeys := planner.literalKeys.put value.identity key })

/-- Decides on one literal value of a module that is hoisted. -/
def planLiteral (p : CompiledProfile) (state : ModulePlan × Planner) (entry : LiteralEntry) :
    ModulePlan × Planner :=
  let (plan, planner) := state
  let (key, planner) := keyOf p planner entry.value
  ({ plan with sites := entry.sites.foldl (fun sites site => sites.put site key) plan.sites
               hoisted := plan.hoisted ++ [(key, entry.value)] },
    planner)

/-- The plan of a module, and the planner for the modules after it. -/
def planModule (p : CompiledProfile) (planner : Planner) (a : Analysis) : ModulePlan × Planner :=
  let named := a.survey.firstRoles.foldl (planName p a.survey) ({}, planner)
  (a.literals.filter LiteralEntry.hoist).foldl (planLiteral p) named

/-- The plans of modules, in order. -/
def planAll (p : CompiledProfile) : Planner → List Analysis → List ModulePlan
  | _, [] => []
  | planner, a :: rest =>
    let (plan, planner) := planner.planModule p a
    plan :: planAll p planner rest

/-- The plans of a whole run. -/
def planRun (p : CompiledProfile) (analyses : List Analysis) : List ModulePlan :=
  planAll p (start analyses) analyses

end Planner

end Abridge
