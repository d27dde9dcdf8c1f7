import HotRename.Path.Basic
import HotRename.Store.Basic

/-!
# Stores on disk

A file tree is a table of files and directories under absolute locations. Names and paths have a
greatest length, and the system takes no path with the null character in it. A disk store lies
under a root: a relative path is taken from there, an absolute path must lie below it, and no path
may go up. What a path resolves to is decided by its spelling alone.

A file tree has neither symbolic nor hard links: every location is a file of its own, and nothing
below the root leads out of it. So what is said about the locations that a run may change is about
the names of files; where a link would lead is left to the system.
-/

namespace HotRename

/-- A file, and what keeps it from being read or written. -/
structure StoredFile where
  bytes : ByteArray
  readFault : Option IoFault := none
  writeFault : Option IoFault := none

/-- What lies at a location. -/
inductive Entry where
  | file (content : StoredFile)
  | directory

/-- A location: the names on the way from the root of the file tree. -/
abbrev Location := List String

/-- Files and directories by their locations. -/
structure FileTree where
  entries : List (Location × Entry)
  /-- Where relative paths start. -/
  workingDirectory : Location

namespace FileTree

/-- There is a directory at the location: one that is listed, or one around something listed. -/
def isDirectory (t : FileTree) (loc : Location) : Bool :=
  loc.isPrefixOf t.workingDirectory ||
    t.entries.any fun entry =>
      match entry.2 with
      | .directory => loc.isPrefixOf entry.1
      -- The directories around a file are there, even if they are not listed.
      | .file _ => loc.isPrefixOf entry.1 && loc ≠ entry.1

/-- The file at the location. -/
def file? (t : FileTree) (loc : Location) : Option StoredFile :=
  match t.entries.lookup loc with
  | some (.file content) => some content
  | _ => none

/-- Number of bytes that a name may have. -/
def maxNameBytes : Nat := 255

/-- Number of bytes that a path may have. -/
def maxPathBytes : Nat := 4095

/-- Refuses to go on from a location that is no directory. -/
def checkDirectory (t : FileTree) (loc : Location) : Except IoFault Unit :=
  if t.isDirectory loc then .ok ()
  else if (t.file? loc).isSome then .error .notDirectory
  else .error .noSuchFile

/-- Follows the components of a path from a location. -/
def follow (t : FileTree) : Location → List Component → Except IoFault Location
  | loc, [] => .ok loc
  -- All steps but this one ask for a directory to go on from, also `.` and `..`.
  | _, .root :: rest => t.follow [] rest
  | loc, .here :: rest => do
    t.checkDirectory loc
    t.follow loc rest
  | loc, .up :: rest => do
    t.checkDirectory loc
    t.follow loc.dropLast rest
  | loc, .name n :: rest => do
    t.checkDirectory loc
    if maxNameBytes < n.utf8ByteSize then
      throw .nameTooLong
    t.follow (loc ++ [n]) rest

/-- The path is spelled as that of a directory. -/
def demandsDirectory (p : Path) : Bool :=
  match p.pieces.getLast? with
  | some last => Path.isFiller last
  | none => false

/-- Refuses a path that no file can have, whatever the tree holds. -/
def checkSpelling (p : Path) : Except IoFault Unit :=
  if p.text.contains '\x00' then .error .nulInPath
  else if maxPathBytes < p.text.utf8ByteSize then .error .nameTooLong
  else if p.text = "" then .error .noSuchFile
  else .ok ()

/-- The location of a path. -/
def locate (t : FileTree) (p : Path) : Except IoFault Location := do
  checkSpelling p
  let loc ← t.follow t.workingDirectory p.components
  if demandsDirectory p then
    t.checkDirectory loc
  return loc

/-- Reads the text of a file. -/
def readText (t : FileTree) (p : Path) : Except IoFault String := do
  let loc ← t.locate p
  match t.file? loc with
  | some content =>
    -- The fault of a file comes before what its bytes would have given.
    match content.readFault with
    | some fault => throw fault
    | none =>
      match String.fromUTF8? content.bytes with
      | some text => return text
      | none => throw .invalidUtf8
  | none => throw (if t.isDirectory loc then .isDirectory else .noSuchFile)

/-- The entries with a file at a location. -/
def put (entries : List (Location × Entry)) (loc : Location) (content : StoredFile) :
    List (Location × Entry) :=
  if (entries.lookup loc).isSome then
    entries.map fun entry => if entry.1 = loc then (loc, .file content) else entry
  else entries ++ [(loc, .file content)]

/-- Replaces the text of a file, which is made if it is not there. -/
def writeText (t : FileTree) (p : Path) (text : String) : Except IoFault FileTree := do
  let loc ← t.locate p
  if t.isDirectory loc then
    throw .isDirectory
  match (t.file? loc).bind StoredFile.writeFault with
  | some fault => throw fault
  -- A file that was written can be read and written again.
  | none => return { t with entries := put t.entries loc { bytes := text.toUTF8 } }

end FileTree

/-- A file tree seen from a root. -/
structure Disk where
  root : Path
  tree : FileTree

namespace Disk

/-- The path that a path of the project stands for under a root. -/
def resolve (root p : Path) : Except StorageError Path :=
  -- An absolute path is cut down to what lies below the root, then both kinds are checked alike.
  match if p.isAbsolute then Path.below? root p else some p with
  | none => .error (.forbidden p)
  | some rest =>
    if rest.components.any fun c => c = .root || c = .up then .error (.forbidden p)
    else .ok (root.join rest)

/-- Reads a file of the project. -/
def read (d : Disk) (p : Path) : Except StorageError String := do
  let full ← resolve d.root p
  -- The error names the path as it was asked for, not the one it stands for.
  (d.tree.readText full).mapError (.ofFault p)

/-- Writes a file of the project. -/
def write (d : Disk) (p : Path) (text : String) : Except StorageError Disk := do
  let full ← resolve d.root p
  let tree ← (d.tree.writeText full text).mapError (.ofFault p)
  return { d with tree }

instance : Store Disk := ⟨read, write⟩

end Disk
end HotRename
