import Abridge.Names.ShortNames
import Abridge.Names.Survey
import Abridge.Profile.Compiled

/-!
# Which names are shortened

Every name of a module gets a verdict: it is renamed under a category rule, or it is kept for a stated
reason.  The reasons are asked in a fixed order.

A name has one short name for a whole run.  The first module in which it is renamed fixes its
category, and later modules may keep it but never rename it differently.
-/

set_option autoImplicit false

namespace Abridge

/-- A name with the short name it has in a run. -/
structure Renaming where
  name : String
  /-- The role in which the name first occurred where it was first renamed. -/
  role : Role
  category : String
  shortName : String
  deriving DecidableEq, Repr, Inhabited

/-- Why a name keeps its spelling. -/
inductive KeepReason where
  | isProtected
  | pinned
  | role (role : Role)
  | tooShort
  | noCategory
  /-- The name is a markup tag and its short name would start with a small letter. -/
  | markupTag
  | dynamicScope
  | disabled
  deriving DecidableEq, Repr, Inhabited

/-- What happens to a name in a module. -/
inductive Verdict where
  | rename (rule : CompiledRule)
  | keep (reason : KeepReason)
  deriving Repr, Inhabited

/-- The renamings of a run so far, in the order in which they were made. -/
structure Classifier where
  renamings : List Renaming := []
  deriving Repr, Inhabited

namespace Classifier

/-- The renaming of a name. -/
def find? (c : Classifier) (name : String) : Option Renaming :=
  c.renamings.find? fun r => r.name == name

/-- The rule that decides the category of a name: of its earlier renaming, or the first that it falls
under. -/
def rule? (c : Classifier) (p : CompiledProfile) (name : String) (role : Role) :
    Option CompiledRule :=
  match c.find? name with
  | some r => p.rules.find? fun rule => rule.rule.name == r.category
  | none => p.categorize name role

/-- Whether a short name with this lead starts with a capital. -/
def startsCapital (lead : String) : Bool := (lead.toList.head?.map Char.isUpper).getD false

/-- The verdict on a name of a module that first occurs there in the role given. -/
def verdict (c : Classifier) (p : CompiledProfile) (survey : Survey) (name : String) (role : Role) :
    Verdict :=
  if !p.profile.renameIdentifiers then .keep .disabled
  else if survey.dynamicScope then .keep .dynamicScope
  else if p.isProtected name then .keep .isProtected
  else if survey.pinned.contains name then .keep .pinned
  else if !role.isRenamable then .keep (.role role)
  else if name.length < p.profile.minIdentifierLength then .keep .tooShort
  else
    match c.rule? p name role with
    | none => .keep .noCategory
    | some rule =>
      if survey.markupTags.contains name && !startsCapital rule.rule.lead then .keep .markupTag
      else .rename rule

/-- The renaming of a name in a module, made when the run has none yet; nothing when the name is
kept. -/
def bind (c : Classifier) (short : ShortNames) (p : CompiledProfile) (survey : Survey)
    (name : String) (role : Role) : Option Renaming × Classifier × ShortNames :=
  match c.verdict p survey name role with
  | .keep _ => (none, c, short)
  | .rename rule =>
    match c.find? name with
    | some r => (some r, c, short)
    | none =>
      let (shortName, short) := short.next rule.rule.lead
      let r : Renaming := { name, role, category := rule.rule.name, shortName }
      (some r, { renamings := c.renamings ++ [r] }, short)

end Classifier

end Abridge
