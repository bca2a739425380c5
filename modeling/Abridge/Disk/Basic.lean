import Abridge.Disk.Error
import Abridge.Path
import Abridge.Table

/-!
# Disks

A disk is a table from locations to what is there: a file, a directory or a link.  A location is the
list of names from the root; a path is a text that leads to one, and the way may go through links.

Programs see the disk through paths only.  `Disk.walk` follows a path from directory to directory, and
every operation of `Abridge.Disk.Operations` starts with it.

## What is here

* `Entry`, `Location`, `Disk`.
* `Disk.walk`: the directory that the parts of a path lead to.
* `Disk.aim`: the directory and the name that an operation on a path is about.
* `Disk.follow`: the location that a path means once all links are followed.
-/

set_option autoImplicit false

namespace Abridge

/-- What is at a location. -/
inductive Entry where
  | file (contents : ByteArray)
  | directory
  | link (target : Path)
  deriving Inhabited

/-- Whether the entry is a directory itself. -/
def Entry.isDirectory : Entry → Bool
  | directory => true
  | _ => false

/-- A place on a disk: the names on the way from the root. -/
abbrev Location := List String

/-- A file name with a part that was drawn at random. -/
structure DrawnName where
  lead : String
  part : String
  trail : String
  deriving DecidableEq, Repr, Inhabited

/-- The name itself. -/
def DrawnName.text (n : DrawnName) : String := n.lead ++ n.part ++ n.trail

/-- A disk, seen from a working directory. -/
structure Disk where
  entries : Table Location Entry := []
  workingDirectory : Location := []
  /-- The names that were drawn so far. -/
  drawn : List DrawnName := []
  deriving Inhabited

namespace Disk

/-- What is at a location; the root is a directory. -/
def at? (disk : Disk) : Location → Option Entry
  | [] => some .directory
  | location => disk.entries.get? location

/-- The disk with an entry at a location. -/
def set (disk : Disk) (location : Location) (entry : Entry) : Disk :=
  { disk with entries := disk.entries.put location entry }

/-- The disk without the entry at a location. -/
def unset (disk : Disk) (location : Location) : Disk :=
  { disk with entries := disk.entries.erase location }

/-- The disk without anything at or below a location. -/
def prune (disk : Disk) (location : Location) : Disk :=
  { disk with entries := disk.entries.filter fun e => !(location.isPrefixOf e.1) }

/-- An empty disk with a working directory. -/
def blank (workingDirectory : Location) : Disk :=
  { entries := (List.range workingDirectory.length).map fun n =>
      (workingDirectory.take (n + 1), .directory)
    workingDirectory }

/-- The names in a directory, with what they stand for. -/
def children (disk : Disk) (directory : Location) : List (String × Entry) :=
  disk.entries.filterMap fun (location, entry) =>
    match location.getLast? with
    | some name => if location.dropLast = directory then some (name, entry) else none
    | none => none

/-! ## Following paths -/

/-- The greatest length of a name in bytes. -/
def nameLimit : Nat := 255

/-- How many links may lie on one way. -/
def linkLimit : Nat := 40

/-- The parts of a path that count. -/
def parts (p : Path) : List String :=
  (Path.splitSlashes p.text.toList).filterMap fun part =>
    if part.isEmpty then none else some (String.ofList part)

/-- Whether a path ends in a slash, and so can only mean a directory. -/
def endsInSlash (p : Path) : Bool := p.text.toList.getLast? == some '/'

/-- Where the parts of a path are followed from. -/
def origin (p : Path) (directory : Location) : Location := if p.isAbsolute then [] else directory

/-- The directory that parts lead to from a directory, and how many links may still be followed. -/
def walk (disk : Disk) (links : Nat) (directory : Location) :
    List String → Except DiskError (Location × Nat)
  | [] => .ok (directory, links)
  | "." :: rest => disk.walk links directory rest
  | ".." :: rest => disk.walk links directory.dropLast rest
  | name :: rest =>
    if nameLimit < name.utf8ByteSize then .error .nameTooLong
    else
      match disk.at? (directory ++ [name]) with
      | none => .error .notFound
      | some (.file _) => .error .notDirectory
      | some .directory => disk.walk links (directory ++ [name]) rest
      | some (.link target) =>
        match links with
        | 0 => .error .tooManyLinks
        | links + 1 => disk.walk links (origin target directory) (parts target ++ rest)
  termination_by parts => (links, parts.length)

/-- What an operation on a path is about. -/
inductive Aim where
  /-- A name in a directory; `slash` tells whether the path ends in a slash. -/
  | name (directory : Location) (name : String) (slash : Bool)
  /-- A directory that the path does not name: the root, or one that ends in dots. -/
  | directory (location : Location)
  deriving DecidableEq, Repr, Inhabited

/-- Aims at what a path means, seen from a directory; the last name is not followed. -/
def aimFrom (disk : Disk) (links : Nat) (directory : Location) (p : Path) :
    Except DiskError (Aim × Nat) :=
  if p.text.toList.contains '\x00' then .error .invalidName
  else if p.text.isEmpty then .error .notFound
  else
    match (parts p).reverse with
    | [] => .ok (.directory [], links)
    | last :: before =>
      match disk.walk links (origin p directory) before.reverse with
      | .error e => .error e
      | .ok (parent, links) =>
        if last = "." then .ok (.directory parent, links)
        else if last = ".." then .ok (.directory parent.dropLast, links)
        else if nameLimit < last.utf8ByteSize then .error .nameTooLong
        else .ok (.name parent last (endsInSlash p), links)

/-- Aims at what a path means, seen from the working directory. -/
def aim (disk : Disk) (p : Path) : Except DiskError Aim :=
  (disk.aimFrom linkLimit disk.workingDirectory p).map Prod.fst

/-- The location that a path means after its last link, at most `fuel` of them, has been followed.
Nothing need be there, but the directory around it is; `slash` tells whether only a directory will
do. -/
def followFrom (disk : Disk) (links : Nat) (directory : Location) (p : Path) :
    Nat → Except DiskError (Location × Bool)
  | 0 => .error .tooManyLinks
  | fuel + 1 =>
    match disk.aimFrom links directory p with
    | .error e => .error e
    | .ok (.directory location, _) => .ok (location, false)
    | .ok (.name parent name slash, links) =>
      match disk.at? (parent ++ [name]) with
      | some (.link target) =>
        match links with
        | 0 => .error .tooManyLinks
        | links + 1 =>
          match disk.followFrom links parent target fuel with
          | .error e => .error e
          | .ok (location, inner) => .ok (location, slash || inner)
      | _ => .ok (parent ++ [name], slash)

/-- The location that a path means after all links have been followed, seen from the working
directory. -/
def follow (disk : Disk) (p : Path) : Except DiskError (Location × Bool) :=
  disk.followFrom linkLimit disk.workingDirectory p (linkLimit + 1)

end Disk

end Abridge
