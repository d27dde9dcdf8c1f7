import HotRename.Path.Basic
import HotRename.Store.Basic

/-!
# Stores in memory

A store in memory holds the text of each file and counts the writes. Writes to chosen paths fail
as if the disk were full.
-/

namespace HotRename

/-- The text of files, and the paths that cannot be written. -/
structure MemoryStore where
  files : List (Path × String)
  failing : List Path
  /-- Number of writes so far. -/
  writes : Nat
  deriving Repr

namespace MemoryStore

/-- The files with the text of one of them replaced, or with one more file. -/
def put (files : List (Path × String)) (p : Path) (text : String) : List (Path × String) :=
  if files.any fun file => p.same file.1 then
    -- The file keeps the spelling under which it was first stored.
    files.map fun file => if p.same file.1 then (file.1, text) else file
  else files ++ [(p, text)]

/-- The store with the given files, later ones replacing earlier ones of the same path. -/
def ofFiles (files : List (Path × String)) (failing : List Path) : MemoryStore :=
  { files := files.foldl (fun all file => put all file.1 file.2) [], failing, writes := 0 }

/-- The text of a file, if there is one. -/
def content? (s : MemoryStore) (p : Path) : Option String :=
  Path.find? p s.files

/-- Reads a file. -/
def read (s : MemoryStore) (p : Path) : Except StorageError String :=
  match s.content? p with
  | some text => .ok text
  | none => .error (.notFound p)

/-- Writes a file. -/
def write (s : MemoryStore) (p : Path) (text : String) : Except StorageError MemoryStore :=
  if s.failing.any p.same then .error (.io p .diskFull)
  else .ok { s with files := put s.files p text, writes := s.writes + 1 }

instance : Store MemoryStore := ⟨read, write⟩

end MemoryStore
end HotRename
