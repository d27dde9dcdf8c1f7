import HotRename.Collaborator.Answer
import HotRename.Edit.Basic
import HotRename.Rename.Conflict
import HotRename.Store.Basic

/-!
# Why a rename fails

Each cause is a constructor with what is known about it. `message` gives the wording, and `chain`
the wordings of the error and of the errors that led to it.
-/

namespace HotRename

/-- The cause of a failed rename. -/
inductive RenameError where
  /-- The request cannot be used. -/
  | invalidInput (reason : String)
  /-- The new name is no identifier. -/
  | invalidIdentifier (error : IdentifierError)
  /-- The symbol does not exist. -/
  | symbolNotFound (id : SymbolId)
  /-- The new name is the current name. -/
  | noOpRename (id : SymbolId) (name : String)
  /-- Some of the conflicts prevent the rename. -/
  | conflicts (conflicts : List Conflict)
  /-- The edits cannot be carried out. -/
  | edit (error : EditError)
  /-- Several renames of a batch have one new name. -/
  | batchCollision (newName : String) (symbols : List SymbolId)
  /-- The renames of a batch form a chain that leads back to its start. -/
  | circularRename (cycle : List SymbolId)
  /-- The analyzer refused the edits. -/
  | editsRejected (errors : List String)
  /-- The store refused an access after the given files had been written. -/
  | application (path : Path) (written : List Path) (source : StorageError)
  /-- A collaborator failed. -/
  | collaborator (error : CollaboratorError)
  deriving DecidableEq, Repr

namespace RenameError

/-- Identifiers as the steps of a chain. -/
def joinIds (ids : List SymbolId) : String :=
  " -> ".intercalate (ids.map SymbolId.text)

/-- The error in words. -/
def message : RenameError → String
  | invalidInput reason => s!"invalid input: {reason}"
  | invalidIdentifier error => error.message
  | symbolNotFound id => s!"symbol not found: {id.text}"
  | noOpRename id name => s!"'{name}' is already the name of {id.text}"
  | conflicts cs =>
    let summary := "; ".intercalate (cs.map Conflict.message)
    s!"rename has {cs.length} conflict(s): {summary}"
  | edit error => s!"edit validation failed: {error.message}"
  | batchCollision newName symbols => s!"renames of {joinIds symbols} all target '{newName}'"
  | circularRename cycle => s!"circular rename chain: {joinIds cycle}"
  | editsRejected errors =>
    let summary := "; ".intercalate errors
    s!"analyzer rejected edits: {summary}"
  | application path _ source => s!"failed to apply edits to {path.text}: {source.message}"
  | collaborator error => s!"collaborator error: {error.message}"

/-- The wordings of the errors that led to this one, the nearest first. -/
def causes : RenameError → List String
  | edit error => [error.message]
  | application _ _ (.io path fault) => [(StorageError.io path fault).message, fault.message]
  | application _ _ source => [source.message]
  | collaborator error => [error.message]
  | _ => []

/-- The wordings of the error and of those that led to it. -/
def chain (e : RenameError) : List String :=
  e.message :: e.causes

/-- The error carries conflicts. -/
def isConflict : RenameError → Bool
  | conflicts _ => true
  | _ => false

/-- The error was found in the request, before anything was planned or written. -/
def isInputError : RenameError → Bool
  | invalidInput _ | invalidIdentifier _ | noOpRename _ _ | batchCollision _ _
  | circularRename _ => true
  | _ => false

end RenameError
end HotRename
