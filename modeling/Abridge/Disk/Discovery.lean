import Abridge.Disk.Operations
import Abridge.Failure

/-!
# Finding modules

What a run is about: a file is one module, a directory stands for the modules below it.  The walk
follows links, except for a link to a directory that it is already inside of, and keeps out of
`node_modules`.  What an earlier run wrote is recognised by its suffix and left out.
-/

set_option autoImplicit false

namespace Abridge

/-- The extensions of modules, without dots and in small letters. -/
def moduleExtensions : List String := ["js", "mjs", "cjs", "jsx", "ts", "mts", "cts", "tsx"]

/-- The directory of dependencies, which is not looked into. -/
def dependencyDirectory : String := "node_modules"

/-- How the files that runs write are recognised. -/
structure ArtifactMarkers where
  optimizedSuffix : String := ".optimized"
  backupSuffix : String := ".bak"
  deriving DecidableEq, Repr, Inhabited

/-- Whether a name ends in a text. -/
def nameEndsIn (name suffix : String) : Bool := suffix.toList.isSuffixOf name.toList

/-- Whether a file is a module by its name. -/
def ArtifactMarkers.isModule (m : ArtifactMarkers) (name : String) : Bool :=
  match Path.splitName name with
  | (_, none) => false
  | (stem, some extension) =>
    moduleExtensions.contains (extension.map Char.toLower) &&
      !([".d.ts", ".d.mts", ".d.cts"].any fun suffix => nameEndsIn name suffix) &&
      !nameEndsIn name m.backupSuffix && !nameEndsIn stem m.optimizedSuffix

namespace Disk

/-- The modules below a directory, at most `fuel` levels down.  `around` are the directories that the
walk is inside of, the innermost first. -/
def modulesBelow (disk : Disk) (m : ArtifactMarkers) (p : Path) (around : List Location) :
    Nat → List Path
  | 0 => []
  | fuel + 1 =>
    (disk.children (around.headD [])).flatMap fun (name, entry) =>
      if name = dependencyDirectory then []
      else
        let below := p.join name
        match disk.stat below with
        | .error _ => []
        | .ok (location, .directory) =>
          if !entry.isDirectory && around.contains location then []
          else disk.modulesBelow m below (location :: around) fuel
        | .ok (_, _) => if m.isModule name then [below] else []

/-- The name by which the target of a walk is judged. -/
def targetName (target : Path) : String := target.fileName?.getD target.text

/-- The modules that a target stands for, in path order. -/
def locate (disk : Disk) (m : ArtifactMarkers) (target : Path) : Except Failure (List Path) :=
  match disk.stat target with
  | .error e => .error (.disk target e)
  | .ok (location, .directory) =>
    let depth := (disk.entries.length + 1) * (disk.entries.length + 1)
    let found :=
      if targetName target = dependencyDirectory then []
      else Path.sortBy id (disk.modulesBelow m target [location] depth)
    if found.isEmpty then .error (.noModules target) else .ok found
  | .ok _ => .ok [target]

end Disk

end Abridge
