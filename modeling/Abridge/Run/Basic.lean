import Abridge.Digest
import Abridge.Failure
import Abridge.Output
import Abridge.Plan.Apply
import Abridge.Plan.Hoist
import Abridge.Review
import Abridge.Syntax.Print

/-!
# Runs

A run shortens modules together: it reads them all, plans them in path order with one set of short
names, writes each one anew, merges their manifests and reviews the result.  Nothing here touches the
disk.

A run has three ends.  It fails when a module cannot be read; it is rejected, with the modules as they
came, when the review has issues; otherwise it is accepted.

## What is here

* `SourceModule`, `ModuleOutput`: a module before and after.
* `Outcome`: how a run ended.
* `run`: the run itself, and `shorten`, a run with a profile that has yet to be checked.
-/

set_option autoImplicit false

namespace Abridge

/-! ## Modules -/

/-- A module of a run. -/
structure SourceModule where
  path : Path
  text : String
  dialect : Dialect
  deriving DecidableEq, Repr, Inhabited

/-- The map from places of a shortened module back to its source. -/
structure PositionMap where
  source : Path
  content : String
  deriving DecidableEq, Repr, Inhabited

/-- The text of a position map. -/
def PositionMap.text (map : PositionMap) : String :=
  Json.compact <| .object
    [("version", .number (.integer 3)), ("sources", .array [.string map.source.text]),
     ("sourcesContent", .array [.string map.content])]

/-- A shortened module. -/
structure ModuleOutput where
  path : Path
  dialect : Dialect
  before : String
  after : String
  positionMap : Option PositionMap
  substitutions : Nat
  deriving DecidableEq, Repr, Inhabited

/-- A module that could not be loaded. -/
structure FailedModule where
  path : Path
  failure : Failure
  deriving DecidableEq, Repr, Inhabited

/-! ## Outcomes -/

/-- What is told about a run. -/
structure Report where
  review : Review
  failed : List FailedModule := []
  deriving DecidableEq, Repr, Inhabited

/-- Whether the run is accepted. -/
def Report.success (r : Report) : Bool := r.review.passed

/-- How a run ended. -/
inductive Outcome where
  | accepted (modules : List ModuleOutput) (manifest : Manifest) (report : Report)
  | rejected (sources : List SourceModule) (report : Report)
  deriving Repr, Inhabited

namespace Outcome

/-- The report of a run. -/
def report : Outcome → Report
  | accepted _ _ r => r
  | rejected _ r => r

/-- The manifest of an accepted run. -/
def manifest? : Outcome → Option Manifest
  | accepted _ m _ => some m
  | rejected .. => none

/-- The text of the first module of an accepted run. -/
def firstText? : Outcome → Option String
  | accepted modules _ _ => modules.head?.map ModuleOutput.after
  | rejected .. => none

/-- The status that a process ends with. -/
def exitCode : Outcome → Nat
  | accepted .. => 0
  | rejected .. => 1

end Outcome

/-- The status for any result of a run. -/
def exitCode : Except Failure Outcome → Nat
  | .ok outcome => outcome.exitCode
  | .error failure => failure.exitCode

/-! ## The run -/

/-- A module that has been read. -/
structure ReadModule where
  source : SourceModule
  program : Program
  deriving Repr, Inhabited

/-- Reads a module. -/
def SourceModule.read (m : SourceModule) : Except Failure ReadModule :=
  match Program.parse? m.text m.dialect with
  | some program => .ok { source := m, program }
  | none => .error (.parse m.path.text)

/-- The plans of the modules of a run, in order. -/
def planModules (p : CompiledProfile) (modules : List ReadModule) : List ModulePlan :=
  Planner.planRun p (modules.map fun m => m.program.analyse m.source.dialect p.profile)

/-- The program of a module under a plan, with the declaration of what the plan hoists. -/
def ReadModule.rewrite (m : ReadModule) (plan : ModulePlan) : Option Program :=
  (m.program.apply plan).hoist plan.hoisted m.source.dialect

/-- The name that the declaration of hoisted literals has in failures. -/
def hoistedLabel : String := "<hoisted literals>"

/-- A module and the program that was made of it under a plan. -/
def ReadModule.output (m : ReadModule) (plan : ModulePlan) (program : Program) (emitMap : Bool) :
    ModuleOutput :=
  { path := m.source.path
    dialect := m.source.dialect
    before := m.source.text
    after := program.print m.source.dialect.jsx
    positionMap :=
      if emitMap then some { source := m.source.path, content := m.source.text } else none
    substitutions := m.program.substitutions plan }

/-- The account of a shortened module. -/
def ModuleOutput.account (o : ModuleOutput) : ModuleRecord :=
  { path := o.path.text
    sourceHash := fingerprint o.before.toUTF8
    sizeBefore := o.before.utf8ByteSize
    sizeAfter := o.after.utf8ByteSize
    substitutions := o.substitutions }

/-- What a shortened module saved. -/
def ModuleRecord.savings (r : ModuleRecord) : Savings :=
  .ofSizes r.sizeBefore r.sizeAfter r.substitutions

/-- Shortens a module by its plan and records what was done. -/
def ReadModule.shorten (m : ReadModule) (plan : ModulePlan) (timestamp : String) (emitMap : Bool) :
    Except Failure (ModuleOutput × Manifest) :=
  match m.rewrite plan with
  | none => .error (.parse hoistedLabel)
  | some program =>
    let output := m.output plan program emitMap
    match Manifest.ofModule timestamp plan.renamings plan.hoisted [output.account]
        output.account.savings with
    | .error c => .error (.conflict c)
    | .ok manifest => .ok (output, manifest)

/-- Merges the manifest of a module into that of a run; a conflict is an issue. -/
def mergeManifests (state : Manifest × Review) (m : Manifest) : Manifest × Review :=
  match state.1.merge m with
  | (merged, none) => (merged, state.2)
  | (merged, some c) => (merged, state.2.issue (.conflict c))

/-- The manifest of a run from those of its modules, and what was found while merging them. -/
def mergeAll (timestamp : String) (manifests : List Manifest) : Manifest × Review :=
  manifests.foldl mergeManifests ({ timestamp }, {})

/-- The manifest of a run: a run of one module keeps no account of its modules. -/
def runManifest (merged : Manifest) (outputs : List ModuleOutput) : Manifest :=
  if outputs.length = 1 then { merged with modules := [] } else merged

/-- Reviews shortened modules against the manifest of their run. -/
def reviewModules (p : CompiledProfile) (manifest : Manifest) (outputs : List ModuleOutput)
    (start : Review) : Review :=
  outputs.foldl
    (fun r o => r.absorb o.path.text (p.review o.before o.after manifest o.dialect)) start

/-- The end of a run: merges, reviews and decides. -/
def conclude (p : CompiledProfile) (timestamp : String) (sources : List SourceModule)
    (results : List (ModuleOutput × Manifest)) (failed : List FailedModule) : Outcome :=
  let outputs := results.map Prod.fst
  let (merged, conflicts) := mergeAll timestamp (results.map Prod.snd)
  let manifest := runManifest merged outputs
  let review :=
    (reviewModules p manifest outputs conflicts).checkSubstitutions manifest.savings.substitutions
  let report : Report := { review, failed }
  if report.success then .accepted outputs manifest report else .rejected sources report

/-- Runs over modules with a checked profile; `failed` are modules that did not get this far. -/
def run (p : CompiledProfile) (emitMap : Bool) (timestamp : String) (modules : List SourceModule)
    (failed : List FailedModule) : Except Failure Outcome := do
  let sorted := Path.sortBy SourceModule.path modules
  let readModules ← sorted.mapM SourceModule.read
  if readModules.isEmpty then .error (.noModules ⟨""⟩)
  let plans := planModules p readModules
  let results ← (readModules.zip plans).mapM fun (m, plan) => m.shorten plan timestamp emitMap
  return conclude p timestamp sorted results failed

/-- Runs over modules with a profile that is checked first. -/
def shorten (profile : Profile) (output : Output) (timestamp : String)
    (modules : List SourceModule) : Except Failure Outcome :=
  match profile.compile with
  | .error e => .error (.profile e)
  | .ok p => run p output.emitPositionMap timestamp modules []

end Abridge
