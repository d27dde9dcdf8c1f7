import HotRename.Rename.Engine
import HotRename.Text.Search

/-!
# Checking edited files

A renamed file is searched as plain text, whatever the analyzer said about it. The old name must
not stand in it as a whole word outside comments, and the new name must stand in it. The parser
reads the file again, and the analyzer is asked whether the new identifier occurs in files that
were not edited.
-/

namespace HotRename

/-- What was found in edited files. -/
structure IntegrityReport where
  valid : Bool
  errors : List String
  warnings : List String
  /-- Number of files that could be read. -/
  filesChecked : Nat
  deriving DecidableEq, Repr

/-- Writes a report. -/
def IntegrityReport.toJson (r : IntegrityReport) : Json :=
  .record
    [("valid", .bool r.valid), ("errors", Json.list .text r.errors),
      ("warnings", Json.list .text r.warnings), ("files_checked", .nat r.filesChecked)]

namespace Integrity

/-- The old name is left in the text of a file. -/
def leftover (words : Text.WordClass) (path : Path) (oldName text : String) : List String :=
  -- Masking keeps the offsets, so the reported one is that in the text itself.
  match Text.findWord words oldName.toList (Text.maskComments text.toList) with
  | some offset => [s!"{path.text} still contains '{oldName}' at byte {offset}"]
  | none => []

/-- The new name is missing from the text of a file. -/
def absent (words : Text.WordClass) (path : Path) (newName text : String) : List String :=
  -- The new name may stand in a comment: this search is not masked.
  if Text.hasWord words newName.toList text.toList then []
  else [s!"{path.text} does not contain '{newName}'"]

end Integrity

namespace Engine

/-- The file can no longer be parsed. -/
def parseErrors (e : Engine) (path : Path) : Asked (List String) :=
  if e.config.verifySyntax then do
    match (← Asked.ask (.parse path) (e.parser.parse path)).supported with
    | .ok _ => return []
    | .error err => return [s!"{path.text} no longer parses: {err.message}"]
  else return []

/-- Whether a file could be read, and what is wrong with it. -/
def inspect (e : Engine) (oldName newName : String) (read : Path → Except StorageError String)
    (path : Path) : Asked (Bool × List String) :=
  match read path with
  | .error err => return (false, [s!"cannot read {path.text}: {err.message}"])
  | .ok text => do
    let parsing ← e.parseErrors path
    return (true,
      Integrity.leftover e.words path oldName text ++
        Integrity.absent e.words path newName text ++ parsing)

/-- What there is to say about each of the files. -/
def inspectAll (e : Engine) (oldName newName : String)
    (read : Path → Except StorageError String) : List Path → Asked (List (Bool × List String))
  | [] => return []
  | p :: ps => do
    let first ← e.inspect oldName newName read p
    let rest ← inspectAll e oldName newName read ps
    return first :: rest

/-- The warnings about files that were not edited and where the new identifier occurs. -/
def strayWarnings (e : Engine) (renamed : SymbolId) (files : List Path) :
    Inquiry (List String) :=
  if e.config.checkStrayOccurrences then do
    let occurrences ← e.occurrencesOf renamed
    let outside := (occurrences.map Occurrence.path).filter fun p => !files.any p.same
    return (Path.set outside).map fun p =>
      s!"'{renamed.name}' resolves to {renamed.text} in unedited file {p.text}; " ++
        "possible accidental shadowing"
  else return []

/-- Refuses a name that cannot be searched for. -/
def checkSearchable (e : Engine) (name : String) : Inquiry Unit :=
  match e.unsearchable? name with
  | none => return ()
  | some reason => throw (.invalidInput s!"cannot search for '{name}': {reason}")

/-- Checks the files that a rename edited. `read` gives their texts after the rename. -/
def verify (e : Engine) (id : SymbolId) (newName : String) (edited : List Path)
    (read : Path → Except StorageError String) : Inquiry IntegrityReport := do
  e.checkSearchable id.name
  e.checkSearchable newName
  -- Two spellings of one file are checked once.
  let files := Path.set edited
  let findings ← ExceptT.lift (e.inspectAll id.name newName read files)
  let errors := findings.flatMap Prod.snd
  let warnings ← e.strayWarnings (id.withName newName) files
  return { valid := errors.isEmpty, errors, warnings, filesChecked := findings.countP Prod.fst }

end Engine
end HotRename
