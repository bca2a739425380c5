import Abridge.Disk.Backup
import Abridge.Disk.Discovery
import Abridge.Profile.Json
import Abridge.Run.Basic

/-!
# Runs on disk

A run on disk backs up the modules it finds, shortens them, and writes all artifacts or none.  The
modules themselves are never written to: whatever happens, they end as they began.

Artifacts are staged before any of them gets its name, and when one cannot get it, those before it
are removed again.

The copies of the modules may not fit on the disk, and the run goes on without the modules that could not
be copied.  So loading, and a run, take a medium.  Staging does not: a temporary file that cannot be filled
goes with the failure, and leaves no more than one that could not be created.

## What is here

* `Disk.loadModulesOn`: the modules of a run, backed up.
* `artifacts` and `Disk.commit`: what an accepted run writes, and the writing.
* `Disk.shortenOn`: the whole run.
* `Disk.loadModules`, `Disk.shorten`: the same on a sound medium.
-/

set_option autoImplicit false

namespace Abridge

/-! ## Loading -/

/-- The modules of a run, as far as they could be loaded. -/
structure Loaded where
  backups : List Backup := []
  modules : List SourceModule := []
  failed : List FailedModule := []
  deriving Repr, Inhabited

namespace Disk

/-- Backs a module up and reads it.  A copy of a module that is no text is of no use and is removed
again. -/
def loadModuleOn (disk : Disk) (medium : Medium) (suffix : String) (p : Path) :
    Disk × Except Failure (Backup × SourceModule) :=
  match Backup.createOn medium disk p suffix with
  | (disk, .error e) => (disk, .error e)
  | (disk, .ok backup) =>
    match disk.readText p with
    | .ok text => (disk, .ok (backup, { path := p, text, dialect := Dialect.ofPath p }))
    | .error e => ((backup.settle disk false).1, .error (.disk p e))

/-- Loads modules in order.  A module that cannot be loaded is noted when there are others to go on
with, and ends the loading otherwise. -/
def loadModulesOn (disk : Disk) (medium : Medium) (suffix : String) (goOn : Bool) (loaded : Loaded) :
    List Path → Disk × Loaded × Option Failure
  | [] => (disk, loaded, none)
  | p :: rest =>
    match disk.loadModuleOn medium suffix p with
    | (disk, .ok (backup, module)) =>
      disk.loadModulesOn medium suffix goOn
        { loaded with backups := loaded.backups ++ [backup]
                      modules := loaded.modules ++ [module] } rest
    | (disk, .error failure) =>
      if goOn then
        disk.loadModulesOn medium suffix goOn
          { loaded with failed := loaded.failed ++ [{ path := p, failure }] } rest
      else (disk, loaded, some failure)

/-- Loads a module on a sound medium. -/
def loadModule (disk : Disk) (suffix : String) (p : Path) : Disk × Except Failure (Backup × SourceModule) :=
  disk.loadModuleOn .sound suffix p

/-- Loads modules on a sound medium. -/
def loadModules (disk : Disk) (suffix : String) (goOn : Bool) (loaded : Loaded) (paths : List Path) :
    Disk × Loaded × Option Failure :=
  disk.loadModulesOn .sound suffix goOn loaded paths

end Disk

/-! ## Writing -/

/-- A file that a run is about to write. -/
structure Artifact where
  path : Path
  text : String
  deriving DecidableEq, Repr, Inhabited

/-- What an accepted run writes, in order: for each module its text and its map, with the manifest
beside a single module or at last in the place given for a whole directory. -/
def artifacts (o : Output) (modules : List ModuleOutput) (manifest : Manifest)
    (runManifest : Option Path) : List Artifact :=
  modules.flatMap (fun m =>
    [⟨o.optimizedPath m.path, m.after⟩] ++
    (m.positionMap.map fun map => (⟨o.positionMapPath m.path, map.text⟩ : Artifact)).toList ++
    if runManifest.isNone then [⟨o.manifestPath m.path, manifest.text⟩] else []) ++
  (runManifest.map fun p => (⟨p, manifest.text⟩ : Artifact)).toList

namespace Disk

/-- The first artifact whose directory takes no files. -/
def stagingFailure (disk : Disk) (staged : List Artifact) : Option Failure :=
  staged.findSome? fun a =>
    match disk.openDirectory a.path.directory with
    | .error e => some (.disk a.path.directory e)
    | .ok _ => none

/-- Removes files; those that cannot be removed stay. -/
def removeAll (disk : Disk) (paths : List Path) : Disk :=
  paths.foldl (fun disk p => (disk.remove p).toOption.getD disk) disk

/-- Gives staged artifacts their names in order; `promoted` have theirs.  A failure takes all of them
back. -/
def promote (disk : Disk) (promoted : List Path) : List Artifact → Disk × Option Failure
  | [] => (disk, none)
  | a :: rest =>
    match disk.replace a.path a.text.toUTF8 with
    | .ok disk => disk.promote (promoted ++ [a.path]) rest
    | .error e => (disk.removeAll promoted, some (.disk a.path e))

/-- Writes artifacts, all or none. -/
def commit (disk : Disk) (staged : List Artifact) : Disk × Option Failure :=
  match disk.stagingFailure staged with
  | some failure => (disk, some failure)
  | none => disk.promote [] staged

/-- Writes what a run produced, if it was accepted. -/
def commitOutcome (disk : Disk) (o : Output) (runManifest : Option Path) :
    Except Failure Outcome → Disk × Except Failure Outcome
  | .error e => (disk, .error e)
  | .ok (.rejected sources report) => (disk, .ok (.rejected sources report))
  | .ok (.accepted modules manifest report) =>
    match disk.commit (artifacts o modules manifest runManifest) with
    | (disk, some failure) => (disk, .error failure)
    | (disk, none) => (disk, .ok (.accepted modules manifest report))

/-- Settles the backups of a run that has its result; a failure of the run comes before one of the
settling. -/
def finish (disk : Disk) (keep : Bool) (backups : List Backup) (result : Except Failure Outcome) :
    Disk × Except Failure Outcome :=
  let (disk, unsettled) := Backup.settleAll disk keep backups
  match result, unsettled with
  | .ok _, some failure => (disk, .error failure)
  | result, _ => (disk, result)

/-- Shortens what a target on disk stands for. -/
def shortenOn (disk : Disk) (medium : Medium) (profile : Profile) (o : Output) (timestamp : String)
    (target : Path) : Disk × Except Failure Outcome :=
  match profile.compile with
  | .error e => (disk, .error (.profile e))
  | .ok p =>
    match disk.locate ⟨o.optimizedSuffix, o.backupSuffix⟩ target with
    | .error e => (disk, .error e)
    | .ok paths =>
      let directoryRun := disk.isDirectory target
      match disk.loadModulesOn medium o.backupSuffix directoryRun {} paths with
      | (disk, loaded, some failure) =>
        match Backup.settleAll disk o.keepBackup loaded.backups with
        | (disk, some unsettled) => (disk, .error unsettled)
        | (disk, none) => (disk, .error failure)
      | (disk, loaded, none) =>
        let runManifest := if directoryRun then some (target.join o.runManifestName) else none
        let (disk, result) :=
          disk.commitOutcome o runManifest
            (run p o.emitPositionMap timestamp loaded.modules loaded.failed)
        disk.finish o.keepBackup loaded.backups result

/-- Shortens what a target on disk stands for, on a sound medium. -/
def shorten (disk : Disk) (profile : Profile) (o : Output) (timestamp : String) (target : Path) :
    Disk × Except Failure Outcome :=
  disk.shortenOn .sound profile o timestamp target

/-! ## Documents -/

/-- The manifest in a file. -/
def loadManifest (disk : Disk) (p : Path) : Except Failure Manifest :=
  match disk.readText p with
  | .error e => .error (.disk p e)
  | .ok text =>
    match Manifest.ofText? text with
    | some m => .ok m
    | none => .error .manifest

/-- The profile in a file. -/
def loadProfile (disk : Disk) (p : Path) : Except Failure Profile :=
  match disk.readText p with
  | .error e => .error (.disk p e)
  | .ok text =>
    match Profile.ofText? text with
    | some profile => .ok profile
    | none => .error (.profile .document)

end Disk

end Abridge
