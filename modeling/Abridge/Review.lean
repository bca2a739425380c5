import Abridge.Manifest.Json
import Abridge.Profile.Compiled
import Abridge.Scope.Fault
import Abridge.Syntax.Parse

/-!
# Reviews

The gate between a shortened module and the disk.  A review lists findings: issues refuse the run,
warnings do not.

## What is here

* `Finding`, with its code and wording, and `Note`, a finding in its place.
* `Review`: the findings and sizes of a module or a run.
* `CompiledProfile.review`: the review of one module.
* `Review.absorb`: the review of a run from those of its modules.
-/

set_option autoImplicit false

namespace Abridge

/-- What a review can find. -/
inductive Finding where
  | reductionCeiling (percent ceiling : Double)
  | manifestSize (size ceiling : Nat)
  /-- A pattern that must occur does not; it may not have occurred before either. -/
  | missingPattern (pattern : String) (occurredBefore : Bool)
  | malformed
  | faulty
  | conflict (cause : Conflict)
  | lowReduction (percent : Double)
  | grew (before after : Nat)
  | nothingChanged
  deriving DecidableEq, Repr, Inhabited

namespace Finding

/-- The code of a finding. -/
def code : Finding → String
  | reductionCeiling .. => "VAL001"
  | manifestSize .. => "VAL002"
  | missingPattern .. => "VAL003"
  | malformed => "VAL004"
  | faulty => "VAL005"
  | conflict _ => "VAL006"
  | lowReduction _ => "WARN001"
  | grew .. => "WARN002"
  | nothingChanged => "WARN003"

/-- The wording of a finding. -/
def message : Finding → String
  | reductionCeiling percent ceiling =>
    "Reduction of " ++ percent.fixed 1 ++ "% exceeds the ceiling of " ++ ceiling.fixed 1 ++ "%"
  | manifestSize size ceiling =>
    "Manifest size of " ++ toString size ++ " bytes exceeds the ceiling of " ++ toString ceiling ++
      " bytes"
  | missingPattern pattern occurredBefore =>
    "Critical pattern missing from optimized output: " ++ pattern ++
      if occurredBefore then "" else " (the original does not match it either)"
  | malformed => "Optimized output failed to re-parse: <diagnostic>"
  | faulty => "Optimized output is semantically invalid: <diagnostic>"
  | conflict cause => cause.message
  | lowReduction percent => "Unusually low reduction of " ++ percent.fixed 2 ++ "%"
  | grew before after =>
    "Optimized output is larger than the original (" ++ toString after ++ " > " ++ toString before ++
      " bytes)"
  | nothingChanged => "No identifiers or literals were substituted"

end Finding

/-- A finding and the places it belongs to, the outermost first. -/
structure Note where
  finding : Finding
  labels : List String := []
  deriving DecidableEq, Repr, Inhabited

/-- The text of a note. -/
def Note.text (n : Note) : String :=
  n.labels.foldr (fun label text => label ++ ": " ++ text)
    ("[" ++ n.finding.code ++ "] " ++ n.finding.message)

/-- The findings and sizes of a module or a run. -/
structure Review where
  issues : List Note := []
  warnings : List Note := []
  sizeBefore : Nat := 0
  sizeAfter : Nat := 0
  reductionPercent : Double := .zero false
  deriving DecidableEq, Repr, Inhabited

namespace Review

/-- Whether nothing speaks against the result. -/
def passed (r : Review) : Bool := r.issues.isEmpty

/-- The review with another issue. -/
def issue (r : Review) (finding : Finding) : Review := { r with issues := r.issues ++ [{ finding }] }

/-- The review with another warning. -/
def warn (r : Review) (finding : Finding) : Review :=
  { r with warnings := r.warnings ++ [{ finding }] }

/-- The notes under another label. -/
def labelled (label : String) (notes : List Note) : List Note :=
  notes.map fun n => { n with labels := label :: n.labels }

/-- Folds the review of a module into that of a run. -/
def absorb (run : Review) (label : String) (r : Review) : Review :=
  { issues := run.issues ++ labelled label r.issues
    warnings := run.warnings ++ labelled label r.warnings
    sizeBefore := run.sizeBefore + r.sizeBefore
    sizeAfter := run.sizeAfter + r.sizeAfter
    reductionPercent :=
      Abridge.reductionPercent (run.sizeBefore + r.sizeBefore) (run.sizeAfter + r.sizeAfter) }

/-- Warns of a run that changed nothing. -/
def checkSubstitutions (r : Review) (substitutions : Nat) : Review :=
  if substitutions = 0 then r.warn .nothingChanged else r

end Review

/-! ## The checks -/

namespace CompiledProfile

/-- What speaks against the size of the result, or is odd about it. -/
def checkReduction (p : CompiledProfile) (r : Review) : Review :=
  if Double.lt p.profile.maxReductionPercent r.reductionPercent then
    r.issue (.reductionCeiling r.reductionPercent p.profile.maxReductionPercent)
  else if Double.lt r.reductionPercent (.zero false) then r.warn (.grew r.sizeBefore r.sizeAfter)
  else if Double.lt r.reductionPercent p.profile.lowReductionWarningPercent then
    r.warn (.lowReduction r.reductionPercent)
  else r

/-- What speaks against the manifest. -/
def manifestFindings (p : CompiledProfile) (m : Manifest) : List Finding :=
  (if p.profile.maxManifestBytes < m.byteSize then
    [.manifestSize m.byteSize p.profile.maxManifestBytes] else []) ++
  (m.conflict?.map Finding.conflict).toList

/-- The critical patterns that the result lacks. -/
def patternFindings (p : CompiledProfile) (before after : String) : List Finding :=
  (p.profile.criticalPatterns.zip p.critical).filterMap fun (text, pattern) =>
    if pattern.isMatch after then none else some (.missingPattern text (pattern.isMatch before))

/-- What speaks against the result as a program. -/
def programFindings (after : String) (d : Dialect) : List Finding :=
  match Program.parse? after d with
  | none => [.malformed]
  | some program => List.replicate (program.faults d) .faulty

/-- The review of a module: its text before and after, and the manifest of the run. -/
def review (p : CompiledProfile) (before after : String) (m : Manifest) (d : Dialect) : Review :=
  let sized : Review :=
    { sizeBefore := before.utf8ByteSize
      sizeAfter := after.utf8ByteSize
      reductionPercent := reductionPercent before.utf8ByteSize after.utf8ByteSize }
  (p.manifestFindings m ++ p.patternFindings before after ++ programFindings after d).foldl
    Review.issue (p.checkReduction sized)

end CompiledProfile

end Abridge
