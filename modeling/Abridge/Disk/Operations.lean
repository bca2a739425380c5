import Abridge.Disk.Basic

/-!
# What programs do with a disk

The operations that programs ask the file system for.  Each one either fails and leaves the disk as it
is, or does all that it says.  A file is created with the bytes that get into it; that the medium can stop
before all of them are written is said where it matters, by `Medium`.

## What is here

* `Disk.stat`, `Disk.read`, `Disk.readText`: looking.
* `Disk.write`, `Disk.create`, `Disk.replace`: three ways to put a file somewhere, over what a path
  means, only where nothing is, and in place of the name itself.
* `Disk.remove`, `Disk.removeTree`, `Disk.makeDirectory`, `Disk.makeDirectories`, `Disk.makeLink`.
* `Disk.createUnique`: a new file with a random part in its name.
-/

set_option autoImplicit false

namespace Abridge

namespace Disk

/-! ## Looking -/

/-- What a path means, with its location: a file or a directory. -/
def stat (disk : Disk) (p : Path) : Except DiskError (Location × Entry) :=
  match disk.follow p with
  | .error e => .error e
  | .ok (location, slash) =>
    match disk.at? location with
    | none => .error .notFound
    | some .directory => .ok (location, .directory)
    | some entry => if slash then .error .notDirectory else .ok (location, entry)

/-- Whether a path means a directory. -/
def isDirectory (disk : Disk) (p : Path) : Bool :=
  match disk.stat p with
  | .ok (_, .directory) => true
  | _ => false

/-- The bytes of a file. -/
def read (disk : Disk) (p : Path) : Except DiskError ByteArray :=
  match disk.stat p with
  | .error e => .error e
  | .ok (_, .file contents) => .ok contents
  | .ok _ => .error .isDirectory

/-- The text of a file. -/
def readText (disk : Disk) (p : Path) : Except DiskError String :=
  match disk.read p with
  | .error e => .error e
  | .ok contents =>
    match String.fromUTF8? contents with
    | some text => .ok text
    | none => .error .invalidText

/-! ## Files -/

/-- Writes a file over what a path means, or where it leads when nothing is there. -/
def write (disk : Disk) (p : Path) (contents : ByteArray) : Except DiskError Disk :=
  match disk.follow p with
  | .error e => .error e
  | .ok (location, slash) =>
    if slash then .error .isDirectory
    else
      match disk.at? location with
      | some .directory => .error .isDirectory
      | _ => .ok (disk.set location (.file contents))

/-- Creates a file where nothing is, not even a link. -/
def create (disk : Disk) (p : Path) (contents : ByteArray) : Except DiskError Disk :=
  match disk.aim p with
  | .error e => .error e
  | .ok (.directory _) => .error .alreadyExists
  | .ok (.name _ _ true) => .error .isDirectory
  | .ok (.name parent name false) =>
    match disk.at? (parent ++ [name]) with
    | some _ => .error .alreadyExists
    | none => .ok (disk.set (parent ++ [name]) (.file contents))

/-- Puts a file in place of a name, whatever the name stood for; a directory stays. -/
def replace (disk : Disk) (p : Path) (contents : ByteArray) : Except DiskError Disk :=
  match disk.aim p with
  | .error e => .error e
  | .ok (.directory _) => .error .busy
  | .ok (.name parent name slash) =>
    if slash then .error .notDirectory
    else
      match disk.at? (parent ++ [name]) with
      | some .directory => .error .isDirectory
      | _ => .ok (disk.set (parent ++ [name]) (.file contents))

/-- Removes a file or a link. -/
def remove (disk : Disk) (p : Path) : Except DiskError Disk :=
  match disk.aim p with
  | .error e => .error e
  | .ok (.directory _) => .error .isDirectory
  | .ok (.name parent name slash) =>
    match disk.at? (parent ++ [name]) with
    | none => .error .notFound
    | some .directory => .error .isDirectory
    | some _ => if slash then .error .notDirectory else .ok (disk.unset (parent ++ [name]))

/-! ## Directories and links -/

/-- Removes a directory with all that is in it, or a link to one. -/
def removeTree (disk : Disk) (p : Path) : Except DiskError Disk :=
  match disk.aim p with
  | .error e => .error e
  | .ok (.directory _) => .error .busy
  | .ok (.name parent name _) =>
    match disk.at? (parent ++ [name]) with
    | none => .error .notFound
    | some .directory => .ok (disk.prune (parent ++ [name]))
    | some _ => .ok (disk.unset (parent ++ [name]))

/-- Makes a directory. -/
def makeDirectory (disk : Disk) (p : Path) : Except DiskError Disk :=
  match disk.aim p with
  | .error e => .error e
  | .ok (.directory _) => .error .alreadyExists
  | .ok (.name parent name _) =>
    match disk.at? (parent ++ [name]) with
    | some _ => .error .alreadyExists
    | none => .ok (disk.set (parent ++ [name]) .directory)

/-- Makes a directory unless there is one. -/
def ensureDirectory (disk : Disk) (p : Path) : Except DiskError Disk :=
  match disk.makeDirectory p with
  | .ok disk => .ok disk
  | .error e => if disk.isDirectory p then .ok disk else .error e

/-- Makes a directory and, at most `fuel` levels up, those around it. -/
def makeDirectoriesWith (disk : Disk) (p : Path) : Nat → Except DiskError Disk
  | 0 => .error .notFound
  | fuel + 1 =>
    if p.text.isEmpty then .ok disk
    else
      match disk.makeDirectory p with
      | .error .notFound =>
        match p.parent? with
        | none => .error .notFound
        | some parent =>
          match disk.makeDirectoriesWith parent fuel with
          | .error e => .error e
          | .ok disk => disk.ensureDirectory p
      | _ => disk.ensureDirectory p

/-- Makes a directory and those around it, where they are missing. -/
def makeDirectories (disk : Disk) (p : Path) : Except DiskError Disk :=
  disk.makeDirectoriesWith p (p.text.length + 1)

/-- Makes a link. -/
def makeLink (disk : Disk) (p target : Path) : Except DiskError Disk :=
  if target.text.isEmpty then .error .notFound
  else
    match disk.aim p with
    | .error e => .error e
    | .ok (.directory _) => .error .alreadyExists
    | .ok (.name parent name slash) =>
      match disk.at? (parent ++ [name]) with
      | some _ => .error .alreadyExists
      | none => if slash then .error .notFound else .ok (disk.set (parent ++ [name]) (.link target))

/-- The location of a directory that files are to be made in. -/
def openDirectory (disk : Disk) (p : Path) : Except DiskError Location :=
  match disk.stat p with
  | .error e => .error e
  | .ok (location, .directory) => .ok location
  | .ok _ => .error .notDirectory

/-! ## Unique names -/

/-- The number of characters in the random part of a name. -/
def drawnLength : Nat := 6

/-- How many random parts there are. -/
def drawnCount : Nat := 1000000

/-- The random part with a number.  All of them have one length, so they come round. -/
def drawnPart (n : Nat) : String :=
  let digits := toString (n % drawnCount)
  String.ofList (List.replicate (drawnLength - digits.length) '0') ++ digits

/-- Tries the random parts from a number on, at most `fuel` of them, until one is free. -/
def createDrawn (disk : Disk) (directory : Path) (lead trail : String) (contents : ByteArray)
    (n : Nat) : Nat → Except DiskError (Path × Disk)
  | 0 => .error .alreadyExists
  | fuel + 1 =>
    let name : DrawnName := ⟨lead, drawnPart n, trail⟩
    let p := directory.join name.text
    match disk.create p contents with
    | .ok made => .ok (p, { made with drawn := disk.drawn ++ [name] })
    | .error .alreadyExists => disk.createDrawn directory lead trail contents (n + 1) fuel
    | .error e => .error e

/-- Creates a file in a directory under a name that nothing has: the given texts with a random part
between them. -/
def createUnique (disk : Disk) (directory : Path) (lead trail : String) (contents : ByteArray) :
    Except DiskError (Path × Disk) :=
  disk.createDrawn directory lead trail contents disk.drawn.length (disk.entries.length + 1)

end Disk

end Abridge
