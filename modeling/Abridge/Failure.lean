import Abridge.Disk.Error
import Abridge.Manifest.Basic
import Abridge.Path
import Abridge.Profile.Compiled

/-!
# Failures

Why a run ends without a result.  A run that is refused because of what it would write is no failure:
it has a result, which says so.
-/

set_option autoImplicit false

namespace Abridge

/-- Why a run ends without a result. -/
inductive Failure where
  /-- A module, or the declaration of hoisted literals, is no program of its dialect. -/
  | parse (file : String)
  | disk (path : Path) (cause : DiskError)
  | profile (cause : ProfileError)
  /-- A text is no document of a manifest. -/
  | manifest
  | conflict (cause : Conflict)
  | noModules (target : Path)
  deriving DecidableEq, Repr, Inhabited

namespace Failure

/-- The wording of a failure.  What is wrong inside a program or a document is not spelled out. -/
def message : Failure → String
  | parse file => "Parse error in " ++ file ++ ": <diagnostic>"
  | disk path cause => "I/O error on " ++ path.text ++ ": " ++ cause.message
  | profile cause => cause.message
  | manifest => "Manifest serialization error: <json>"
  | conflict cause => cause.message
  | noModules target => "No optimizable modules found under " ++ target.text

/-- The status that a process ends with. -/
def exitCode : Failure → Nat
  | parse _ => 2
  | _ => 3

end Failure

end Abridge
