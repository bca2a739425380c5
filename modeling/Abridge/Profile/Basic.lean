import Abridge.Names.Role
import Abridge.Number.Double

/-!
# Profiles

A profile says how far shortening goes: which names and literals are worth it, how the short ones are
spelled, and how much change a run accepts.  The presets differ only in these values; nothing else in
the library asks which preset is in force.
-/

set_option autoImplicit false

namespace Abridge

/-- One row of the category table: a name that the pattern matches falls into the category and gets a
short name that starts with the rule's lead. -/
structure CategoryRule where
  name : String
  lead : String
  pattern : String
  /-- The rule holds for these roles only. -/
  roles : Option (List Role) := none
  /-- The rule holds for names of at least this length only. -/
  minLength : Option Nat := none
  deriving DecidableEq, Repr, Inhabited

/-- The default table: components, hooks, arguments, functions, utilities, long names, and at last
everything else. -/
def defaultRules : List CategoryRule :=
  [{ name := "component", lead := "c", pattern := "^[A-Z][A-Za-z0-9]*$" },
   { name := "hook", lead := "h", pattern := "^use[A-Z][A-Za-z0-9_]*$" },
   { name := "argument", lead := "a", pattern := ".", roles := some [.parameter] },
   { name := "function", lead := "f",
     pattern := "^(handle|on|get|fetch|load|render|create|update|toggle|compute|format|parse|" ++
       "validate|build|init)[A-Z0-9_]" },
   { name := "utility", lead := "u",
     pattern := "^(is|has|can|should|to|from)[A-Z]|(Util|Utils|Helper|Helpers)$" },
   { name := "long", lead := "l", pattern := ".", minLength := some 16 },
   { name := "variable", lead := "v", pattern := "." }]

/-- The values that steer a run; the defaults are those of the balanced preset. -/
structure Profile where
  name : String := "balanced"
  /-- Whether names are shortened, how long they must be, and which are left alone. -/
  renameIdentifiers : Bool := true
  minIdentifierLength : Nat := 3
  protectedNames : List String := []
  categoryRules : List CategoryRule := defaultRules
  /-- Whether literals are hoisted, which of them count, and when it pays. -/
  hoistLiterals : Bool := true
  minStringLength : Nat := 5
  minNumberMagnitude : Double := Double.ofNat 1000
  minLiteralOccurrences : Nat := 2
  literalDeclarationOverhead : Nat := 6
  literalSavingsThreshold : Nat := 40
  stringLead : String := "s"
  numberLead : String := "n"
  /-- What a run may change, what it should, and what its output must contain. -/
  maxReductionPercent : Double := Double.ofNat 70
  lowReductionWarningPercent : Double := Double.ofNat 1
  maxManifestBytes : Nat := 2 * 1024 * 1024
  criticalPatterns : List String := []
  deriving DecidableEq, Repr, Inhabited

namespace Profile

/-- The preset between the two others. -/
def balanced : Profile := {}

/-- Shortens only what clearly pays. -/
def conservative : Profile :=
  { name := "conservative"
    minIdentifierLength := 4
    minStringLength := 8
    minNumberMagnitude := Double.ofNat 10000
    minLiteralOccurrences := 3
    literalDeclarationOverhead := 8
    literalSavingsThreshold := 80
    maxReductionPercent := Double.ofNat 50
    maxManifestBytes := 1024 * 1024 }

/-- Shortens almost everything. -/
def aggressive : Profile :=
  { name := "aggressive"
    minIdentifierLength := 2
    minStringLength := 3
    minNumberMagnitude := Double.ofNat 100
    literalDeclarationOverhead := 4
    literalSavingsThreshold := 20
    maxReductionPercent := Double.ofNat 85
    maxManifestBytes := 8 * 1024 * 1024 }

/-- The preset of a name. -/
def preset? : String → Option Profile
  | "conservative" => some conservative
  | "balanced" => some balanced
  | "default" => some balanced
  | "aggressive" => some aggressive
  | _ => none

end Profile

end Abridge
