import HotRename.Path.Basic

/-!
# Stores

A store holds the text of files. Reading leaves it as it is; a write either fails and leaves it as
it is, or gives the store after the write.
-/

namespace HotRename

/-- Why the system refused an access. -/
inductive IoFault where
  | noSuchFile
  | notDirectory
  | isDirectory
  | nameTooLong
  /-- The path holds the character that ends a path for the system. -/
  | nulInPath
  | invalidUtf8
  | diskFull
  /-- Any other reason, in the words of the system. -/
  | other (text : String)
  deriving DecidableEq, Repr

/-- The fault in words. -/
def IoFault.message : IoFault → String
  | noSuchFile => "No such file or directory (os error 2)"
  | notDirectory => "Not a directory (os error 20)"
  | isDirectory => "Is a directory (os error 21)"
  | nameTooLong => "File name too long (os error 36)"
  | nulInPath => "file name contained an unexpected NUL byte"
  | invalidUtf8 => "stream did not contain valid UTF-8"
  | diskFull => "disk full"
  | other text => text

/-- Why a store refused an access. -/
inductive StorageError where
  | notFound (path : Path)
  /-- The path leads out of the store. -/
  | forbidden (path : Path)
  | io (path : Path) (fault : IoFault)
  deriving DecidableEq, Repr

namespace StorageError

/-- The error in words. -/
def message : StorageError → String
  | notFound path => s!"file not found: {path.text}"
  | forbidden path => s!"path not allowed: {path.text}"
  | io path fault => s!"i/o error on {path.text}: {fault.message}"

/-- The error that stands for a fault met at a path. -/
def ofFault (path : Path) : IoFault → StorageError
  | .noSuchFile => .notFound path
  | fault => .io path fault

end StorageError

/-- A place that holds the text of files. -/
class Store (σ : Type u) where
  /-- The text of a file. -/
  read : σ → Path → Except StorageError String
  /-- The store after the text of a file was replaced. -/
  write : σ → Path → String → Except StorageError σ

end HotRename
