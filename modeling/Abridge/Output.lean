import Abridge.Json.Decode
import Abridge.Path
import Abridge.Syntax.Token

/-!
# Artifacts

The files that a run writes stand beside the modules they belong to.  Their names are made from the
module's name and the suffixes of the options.
-/

set_option autoImplicit false

namespace Abridge

/-- How artifacts are named and which are kept. -/
structure Output where
  optimizedSuffix : String := ".optimized"
  manifestSuffix : String := ".manifest.json"
  /-- The name of the one manifest of a directory run. -/
  runManifestName : String := "optimization.manifest.json"
  backupSuffix : String := ".bak"
  emitPositionMap : Bool := false
  keepBackup : Bool := false
  deriving DecidableEq, Repr, Inhabited

namespace Output

/-- Where the shortened module goes. -/
def optimizedPath (o : Output) (module : Path) : Path :=
  module.withFileName <|
    match module.extension? with
    | some extension => module.stem ++ o.optimizedSuffix ++ "." ++ extension
    | none => module.stem ++ o.optimizedSuffix

/-- Where the manifest of a single module goes. -/
def manifestPath (o : Output) (module : Path) : Path :=
  module.withFileName (module.stem ++ o.manifestSuffix)

/-- Where the position map goes. -/
def positionMapPath (o : Output) (module : Path) : Path := (o.optimizedPath module).append ".map"

/-- Where the copy of a module goes while a run works on it. -/
def backupPath (module : Path) (suffix : String) : Path := module.append suffix

/-! ## Options as documents -/

/-- The fields of the options, in order. -/
def fieldNames : List String :=
  ["optimizedSuffix", "manifestSuffix", "runManifestName", "backupSuffix", "emitPositionMap",
   "keepBackup"]

/-- Options from their document; what is missing has its default. -/
def ofJson? (v : Json) : Option Output := do
  let fields ← v.record? fieldNames
  let d : Output := {}
  let optimizedSuffix ← Json.optional? fields "optimizedSuffix" Json.asString? d.optimizedSuffix
  let manifestSuffix ← Json.optional? fields "manifestSuffix" Json.asString? d.manifestSuffix
  let runManifestName ← Json.optional? fields "runManifestName" Json.asString? d.runManifestName
  let backupSuffix ← Json.optional? fields "backupSuffix" Json.asString? d.backupSuffix
  let emitPositionMap ← Json.optional? fields "emitPositionMap" Json.asBool? d.emitPositionMap
  let keepBackup ← Json.optional? fields "keepBackup" Json.asBool? d.keepBackup
  return { optimizedSuffix, manifestSuffix, runManifestName, backupSuffix, emitPositionMap,
           keepBackup }

/-- The document of the options. -/
def toJson (o : Output) : Json :=
  .object
    [("optimizedSuffix", .string o.optimizedSuffix), ("manifestSuffix", .string o.manifestSuffix),
     ("runManifestName", .string o.runManifestName), ("backupSuffix", .string o.backupSuffix),
     ("emitPositionMap", .bool o.emitPositionMap), ("keepBackup", .bool o.keepBackup)]

end Output

/-- The dialect that a module's extension stands for. -/
def Dialect.ofPath (p : Path) : Dialect :=
  match (p.extension?.getD "").map Char.toLower with
  | "cjs" => { module := false }
  | "ts" | "mts" | "cts" => { jsx := false, typescript := true }
  | "tsx" => { typescript := true }
  | _ => {}

end Abridge
