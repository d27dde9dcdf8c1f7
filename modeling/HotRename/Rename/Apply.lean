import HotRename.Edit.Splice
import HotRename.Rename.Engine

/-!
# Validating and applying edits

All edited files are read and spliced before the first one is written, so an edit that does not
fit leaves the store as it was. Writing goes in the order of paths; when a write fails, the error
lists the files written before it.
-/

namespace HotRename

/-- What validation has to say about an edit that it accepts. -/
structure ValidationReport where
  files : Nat
  edits : Nat
  warnings : List String
  deriving DecidableEq, Repr

/-- Writes a report. -/
def ValidationReport.toJson (r : ValidationReport) : Json :=
  .record
    [("files", .nat r.files), ("edits", .nat r.edits), ("warnings", Json.list .text r.warnings)]

/-- The new texts of the edited files, in the order of paths. -/
structure ApplyResult where
  files : List (Path × String)
  /-- The texts were written to the store. -/
  written : Bool
  deriving DecidableEq, Repr

namespace ApplyResult

/-- The edited files. -/
def paths (r : ApplyResult) : List Path :=
  r.files.map Prod.fst

/-- Writes a result. -/
def toJson (r : ApplyResult) : Json :=
  .record
    [("files", .record (r.files.map fun file => (file.1.text, .text file.2))),
      ("written", .bool r.written)]

end ApplyResult

namespace Engine

/-- The warnings about files with more edits than the settings allow for. -/
def countWarnings (limit : Nat) (counts : List (Path × Nat)) : List String :=
  (counts.filter fun file => limit < file.2).map fun file =>
    s!"{file.1.text} receives {file.2} edits (threshold {limit})"

/-- Checks the ranges of an edit and asks the analyzer for its verdict. -/
def validate (e : Engine) (edit : WorkspaceEdit) : Inquiry ValidationReport := do
  Inquiry.ofExcept .edit edit.validate
  let warnings := countWarnings e.config.maxEditsPerFile edit.counts
  -- The verdict is `none` if it is not wanted, and if the analyzer cannot give one.
  let verdict ←
    if e.config.deepValidation then
      Inquiry.askSupported (.validateEdits edit) (e.analyzer.validateEdits edit)
    else pure none
  match verdict with
  | none => return { files := edit.counts.length, edits := edit.size, warnings }
  | some verdict =>
    unless verdict.valid do
      throw (.editsRejected verdict.errors)
    return {
      files := edit.counts.length
      edits := edit.size
      warnings := warnings ++ verdict.warnings }

end Engine

namespace Apply

/-- The new texts of the files with edits, given how files are read. -/
def spliceAll (read : Path → Except StorageError String) :
    List (Path × List TextEdit) → Except RenameError (List (Path × String))
  | [] => .ok []
  | (path, edits) :: rest => do
    -- Nothing has been written yet when a file cannot be read.
    let text ← (read path).mapError (.application path [])
    let updated ← (Splice.apply path text edits).mapError .edit
    return (path, updated) :: (← spliceAll read rest)

variable {σ : Type u} [Store σ]

/-- Writes files one after the other. `written` holds those written before. -/
def writeAll : (written : List Path) → List (Path × String) → σ → Except RenameError Unit × σ
  | _, [], s => (.ok (), s)
  | written, (path, text) :: rest, s =>
    match Store.write s path text with
    -- What was written before stays written.
    | .error source => (.error (.application path written source), s)
    | .ok s => writeAll (written ++ [path]) rest s

/-- The new texts of the edited files, none of which is written. -/
def compute (edit : WorkspaceEdit) (s : σ) : Except RenameError (List (Path × String)) := do
  edit.validate.mapError .edit
  spliceAll (Store.read s) edit.groups

/-- Applies an edit. In a dry run nothing is written. -/
def run (edit : WorkspaceEdit) (dryRun : Bool) (s : σ) : Except RenameError ApplyResult × σ :=
  match compute edit s with
  | .error err => (.error err, s)
  | .ok files =>
    if dryRun then (.ok { files, written := false }, s)
    else
      match writeAll [] files s with
      | (.error err, s) => (.error err, s)
      | (.ok (), s) => (.ok { files, written := true }, s)

end Apply
end HotRename
