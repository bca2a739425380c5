import Abridge.Json.Decode
import Abridge.Profile.Basic

/-!
# Profiles as documents

The written form of a profile.  A field that is missing has the value of the balanced preset, so that a
document lists only what it changes.
-/

set_option autoImplicit false

namespace Abridge

/-- A role from its name, alone or as the only member of an object. -/
def Role.ofJson? : Json → Option Role
  | .string s => Role.ofText? s
  | .object [(s, .null)] => Role.ofText? s
  | _ => none

namespace CategoryRule

/-- A rule from its document. -/
def ofJson? (v : Json) : Option CategoryRule := do
  let fields ← v.record? ["name", "prefix", "pattern", "contexts", "minLength"]
  let name ← Json.required? fields "name" Json.asString?
  let lead ← Json.required? fields "prefix" Json.asString?
  let pattern ← Json.required? fields "pattern" Json.asString?
  let roles ← Json.optional? fields "contexts" (Json.asOption? (Json.asList? Role.ofJson?)) none
  let minLength ← Json.optional? fields "minLength" (Json.asOption? Json.asSize?) none
  return { name, lead, pattern, roles, minLength }

/-- The document of a rule; what is not restricted is left out. -/
def toJson (r : CategoryRule) : Json :=
  .object <|
    [("name", .string r.name), ("prefix", .string r.lead), ("pattern", .string r.pattern)] ++
    (match r.roles with
      | some roles => [("contexts", .array (roles.map fun c => .string c.text))]
      | none => []) ++
    (match r.minLength with
      | some n => [("minLength", .number (.integer n))]
      | none => [])

end CategoryRule

namespace Profile

/-- The fields of a profile, in order. -/
def fieldNames : List String :=
  ["name", "renameIdentifiers", "minIdentifierLength", "protectedNames", "categoryRules",
   "hoistLiterals", "minStringLength", "minNumberMagnitude", "minLiteralOccurrences",
   "literalDeclarationOverhead", "literalSavingsThreshold", "stringPrefix", "numberPrefix",
   "maxReductionPercent", "lowReductionWarningPercent", "maxManifestBytes", "criticalPatterns"]

/-- A profile from its document. -/
def ofJson? (v : Json) : Option Profile := do
  let fields ← v.record? fieldNames
  let d := balanced
  let get {α : Type} (name : String) (value : Json → Option α) (default : α) :=
    Json.optional? fields name value default
  let name ← get "name" Json.asString? d.name
  let renameIdentifiers ← get "renameIdentifiers" Json.asBool? d.renameIdentifiers
  let minIdentifierLength ← get "minIdentifierLength" Json.asSize? d.minIdentifierLength
  let protectedNames ← get "protectedNames" (Json.asList? Json.asString?) d.protectedNames
  let categoryRules ← get "categoryRules" (Json.asList? CategoryRule.ofJson?) d.categoryRules
  let hoistLiterals ← get "hoistLiterals" Json.asBool? d.hoistLiterals
  let minStringLength ← get "minStringLength" Json.asSize? d.minStringLength
  let minNumberMagnitude ← get "minNumberMagnitude" Json.asDouble? d.minNumberMagnitude
  let minLiteralOccurrences ← get "minLiteralOccurrences" Json.asSize? d.minLiteralOccurrences
  let literalDeclarationOverhead ←
    get "literalDeclarationOverhead" Json.asSize? d.literalDeclarationOverhead
  let literalSavingsThreshold ← get "literalSavingsThreshold" Json.asSize? d.literalSavingsThreshold
  let stringLead ← get "stringPrefix" Json.asString? d.stringLead
  let numberLead ← get "numberPrefix" Json.asString? d.numberLead
  let maxReductionPercent ← get "maxReductionPercent" Json.asDouble? d.maxReductionPercent
  let lowReductionWarningPercent ←
    get "lowReductionWarningPercent" Json.asDouble? d.lowReductionWarningPercent
  let maxManifestBytes ← get "maxManifestBytes" Json.asSize? d.maxManifestBytes
  let criticalPatterns ← get "criticalPatterns" (Json.asList? Json.asString?) d.criticalPatterns
  return { name, renameIdentifiers, minIdentifierLength, protectedNames, categoryRules,
           hoistLiterals, minStringLength, minNumberMagnitude, minLiteralOccurrences,
           literalDeclarationOverhead, literalSavingsThreshold, stringLead, numberLead,
           maxReductionPercent, lowReductionWarningPercent, maxManifestBytes, criticalPatterns }

/-- The document of a profile, with all fields. -/
def toJson (p : Profile) : Json :=
  let size (n : Nat) : Json := .number (.integer n)
  let float (x : Double) : Json := .number (.float x)
  let strings (xs : List String) : Json := .array (xs.map .string)
  .object
    [("name", .string p.name),
     ("renameIdentifiers", .bool p.renameIdentifiers),
     ("minIdentifierLength", size p.minIdentifierLength),
     ("protectedNames", strings p.protectedNames),
     ("categoryRules", .array (p.categoryRules.map CategoryRule.toJson)),
     ("hoistLiterals", .bool p.hoistLiterals),
     ("minStringLength", size p.minStringLength),
     ("minNumberMagnitude", float p.minNumberMagnitude),
     ("minLiteralOccurrences", size p.minLiteralOccurrences),
     ("literalDeclarationOverhead", size p.literalDeclarationOverhead),
     ("literalSavingsThreshold", size p.literalSavingsThreshold),
     ("stringPrefix", .string p.stringLead),
     ("numberPrefix", .string p.numberLead),
     ("maxReductionPercent", float p.maxReductionPercent),
     ("lowReductionWarningPercent", float p.lowReductionWarningPercent),
     ("maxManifestBytes", size p.maxManifestBytes),
     ("criticalPatterns", strings p.criticalPatterns)]

/-- A profile from the text of its document. -/
def ofText? (text : String) : Option Profile := Json.parse? text >>= ofJson?

end Profile

end Abridge
