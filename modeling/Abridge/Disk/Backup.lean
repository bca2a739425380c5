import Abridge.Digest
import Abridge.Disk.Operations
import Abridge.Failure
import Abridge.Output

/-!
# Backups

Before a run works on a file, the file is copied aside and fingerprinted.  When the run is over the
backup is settled: a file that changed meanwhile is restored from the copy, and the copy goes.

A copy never takes the place of a file that is there already: when the plain name is taken, the copy
gets a random part in its name.

A copy is a new file that is created first and filled then, and the filling can fail: the disk may be full.
What has the plain name stays as far as it was written.  A file with a random part in its name goes when the
filling fails.

## What is here

* `Medium`: how far the writing of a new file gets.
* `Backup.createOn`, `Backup.create`: copying a file aside, on any medium and on a sound one.
* `Backup.settle`, `Backup.settleAll`: the end of backups.
-/

set_option autoImplicit false

namespace Abridge

/-! ## Media -/

/-- How far the writing of a new file gets on a disk: all the way, or so many bytes for a reason. -/
structure Medium where
  stops? : Disk → Path → ByteArray → Option (Nat × DiskError)

namespace Medium

/-- A medium on which everything is written. -/
def sound : Medium := ⟨fun _ _ _ => none⟩

/-- The bytes that get into a new file. -/
def taken (medium : Medium) (disk : Disk) (p : Path) (contents : ByteArray) : ByteArray :=
  match medium.stops? disk p contents with
  | none => contents
  | some (n, _) => contents.extract 0 n

end Medium

/-! ## Copies -/

/-- A file, its copy, and what the file looked like. -/
structure Backup where
  source : Path
  copy : Path
  fingerprint : String
  deriving DecidableEq, Repr, Inhabited

namespace Backup

/-- Copies bytes aside under a unique name. -/
def createUnique (disk : Disk) (source : Path) (suffix : String) (contents : ByteArray) :
    Except Failure (Path × Disk) :=
  match disk.createUnique source.directory (source.fileName?.getD "" ++ ".") suffix contents with
  | .ok made => .ok made
  | .error e => .error (.disk source.directory e)

/-- Copies a file aside. -/
def createOn (medium : Medium) (disk : Disk) (source : Path) (suffix : String) :
    Disk × Except Failure Backup :=
  match disk.read source with
  | .error e => (disk, .error (.disk source e))
  | .ok contents =>
    let print := Abridge.fingerprint contents
    let preferred := Output.backupPath source suffix
    match disk.create preferred (medium.taken disk preferred contents) with
    | .ok made =>
      match medium.stops? disk preferred contents with
      | none => (made, .ok { source, copy := preferred, fingerprint := print })
      | some (_, e) => (made, .error (.disk preferred e))
    | .error .alreadyExists =>
      match createUnique disk source suffix contents with
      | .error e => (disk, .error e)
      | .ok (copy, made) =>
        match medium.stops? disk copy contents with
        | none => (made, .ok { source, copy, fingerprint := print })
        -- A file with a drawn name is temporary until it is filled.
        | some (_, e) => (disk, .error (.disk copy e))
    | .error e => (disk, .error (.disk preferred e))

/-- Copies a file aside on a sound medium. -/
def create (disk : Disk) (source : Path) (suffix : String) : Except Failure (Backup × Disk) :=
  match createOn .sound disk source suffix with
  | (disk, .ok backup) => .ok (backup, disk)
  | (_, .error e) => .error e

/-! ## Settling -/

/-- Whether the file still looks as it did. -/
def verify (b : Backup) (disk : Disk) : Bool :=
  match disk.read b.source with
  | .ok contents => Abridge.fingerprint contents == b.fingerprint
  | .error _ => false

/-- Writes the copy over the file. -/
def restore (b : Backup) (disk : Disk) : Except Failure Disk :=
  match disk.read b.copy with
  | .error e => .error (.disk b.copy e)
  | .ok contents =>
    match disk.write b.source contents with
    | .ok disk => .ok disk
    | .error e => .error (.disk b.source e)

/-- Removes the copy unless it is to be kept; the answer tells whether the file was restored. -/
def discard (b : Backup) (disk : Disk) (keep restored : Bool) : Disk × Except Failure Bool :=
  if keep then (disk, .ok restored)
  else
    match disk.remove b.copy with
    | .ok disk => (disk, .ok restored)
    | .error e => (disk, .error (.disk b.copy e))

/-- Ends the backup: restores the file if it changed, and removes the copy unless it is to be kept. -/
def settle (b : Backup) (disk : Disk) (keep : Bool) : Disk × Except Failure Bool :=
  if b.verify disk then b.discard disk keep false
  else
    match b.restore disk with
    | .error e => (disk, .error e)
    | .ok disk => b.discard disk keep true

/-- Settles backups in order, all of them; the first failure is told. -/
def settleAll (disk : Disk) (keep : Bool) : List Backup → Disk × Option Failure
  | [] => (disk, none)
  | b :: rest =>
    let (disk, result) := b.settle disk keep
    let (disk, later) := settleAll disk keep rest
    match result with
    | .ok _ => (disk, later)
    | .error e => (disk, some e)

end Backup

end Abridge
