import Abridge.Pattern.Parse
import Abridge.Profile.Basic
import Abridge.Number.Text
import Abridge.Scope.Protected

/-!
# Checked profiles

A profile steers a run only after its values have been checked and its patterns read.  The checks come
in a fixed order and the first one that fails is reported.

## What is here

* `ProfileError`: what can be wrong with a profile.
* `Profile.compile`: the checks.
* `CompiledProfile`: a profile that passed them, with the two questions that a run asks of it: is a
  name protected, and which category does it fall into?
-/

set_option autoImplicit false

namespace Abridge

/-- What can be wrong with a profile. -/
inductive ProfileError where
  /-- The document is not one of a profile. -/
  | document
  | reductionBound (value : Double)
  | noOccurrences
  | lead (text : String)
  | categoryPattern (category : String)
  | criticalPattern (pattern : String)
  deriving DecidableEq, Repr, Inhabited

/-- The wording of an error.  What is wrong inside a document or a pattern is not spelled out. -/
def ProfileError.message : ProfileError → String
  | .document => "Invalid strategy profile: <json>"
  | .reductionBound x =>
    "Invalid strategy profile: maxReductionPercent must be in (0, 100], got " ++ x.display
  | .noOccurrences => "Invalid strategy profile: minLiteralOccurrences must be at least 1"
  | .lead text => "Invalid strategy profile: `" ++ text ++ "` is not a usable short-name prefix"
  | .categoryPattern category =>
    "Invalid strategy profile: category `" ++ category ++ "`: <regex>"
  | .criticalPattern pattern =>
    "Invalid strategy profile: critical pattern `" ++ pattern ++ "`: <regex>"

/-- A category rule with its pattern read. -/
structure CompiledRule where
  rule : CategoryRule
  pattern : Pattern
  deriving Repr, Inhabited

/-- Whether a name that first occurs in a role falls under the rule. -/
def CompiledRule.accepts (r : CompiledRule) (name : String) (role : Role) : Bool :=
  (match r.rule.roles with
    | some roles => roles.contains role
    | none => true) &&
  (match r.rule.minLength with
    | some n => n ≤ name.length
    | none => true) &&
  r.pattern.isMatch name

/-- A profile that passed its checks. -/
structure CompiledProfile where
  profile : Profile
  rules : List CompiledRule
  critical : List Pattern
  deriving Repr, Inhabited

namespace CompiledProfile

/-- Whether a name keeps its spelling whatever its role. -/
def isProtected (p : CompiledProfile) (name : String) : Bool :=
  isProtectedName name || p.profile.protectedNames.contains name

/-- The first rule that a name falls under. -/
def categorize (p : CompiledProfile) (name : String) (role : Role) : Option CompiledRule :=
  p.rules.find? fun r => r.accepts name role

end CompiledProfile

namespace Profile

/-- Whether short names may start with a text: an ASCII identifier that is not reserved. -/
def isUsableLead (text : String) : Bool :=
  match text.toList with
  | [] => false
  | c :: cs =>
    (c.isAlpha || c == '_' || c == '$') && cs.all (fun c => c.isAlphanum || c == '_' || c == '$') &&
      !isReservedName text

/-- Reads the patterns of the category table. -/
def compileRules : List CategoryRule → Except ProfileError (List CompiledRule)
  | [] => .ok []
  | r :: rs =>
    match Pattern.parse? r.pattern with
    | none => .error (.categoryPattern r.name)
    | some pattern =>
      match compileRules rs with
      | .ok compiled => .ok (⟨r, pattern⟩ :: compiled)
      | .error e => .error e

/-- Reads the critical patterns. -/
def compileCritical : List String → Except ProfileError (List Pattern)
  | [] => .ok []
  | text :: texts =>
    match Pattern.parse? text with
    | none => .error (.criticalPattern text)
    | some pattern =>
      match compileCritical texts with
      | .ok compiled => .ok (pattern :: compiled)
      | .error e => .error e

/-- All texts that short names start with. -/
def leads (p : Profile) : List String :=
  p.stringLead :: p.numberLead :: p.categoryRules.map CategoryRule.lead

/-- Whether the greatest accepted reduction is a percentage above zero. -/
def hasReductionBound (p : Profile) : Bool :=
  Double.lt (.zero false) p.maxReductionPercent &&
    Double.le p.maxReductionPercent (Double.ofNat 100)

/-- Checks a profile and reads its patterns. -/
def compile (p : Profile) : Except ProfileError CompiledProfile :=
  if !p.hasReductionBound then .error (.reductionBound p.maxReductionPercent)
  else if p.minLiteralOccurrences = 0 then .error .noOccurrences
  else
    match p.leads.find? fun text => !isUsableLead text with
    | some text => .error (.lead text)
    | none =>
      match compileRules p.categoryRules with
      | .error e => .error e
      | .ok rules =>
        match compileCritical p.criticalPatterns with
        | .error e => .error e
        | .ok critical => .ok { profile := p, rules, critical }

end Profile

end Abridge
