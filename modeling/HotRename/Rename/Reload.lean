import HotRename.Rename.Cascade
import HotRename.Symbol.Kind

/-!
# Reloading renamed symbols

After a rename was written, every symbol of its cascade gets an update: it is recompiled when it
was renamed or lies in an edited file, and notified otherwise. The other symbols of the edited
files are notified too. Every recompiled script whose file is known gets a patch.
-/

namespace HotRename

/-- What a running program does with a symbol. -/
inductive UpdateAction where
  | recompile
  | notify
  deriving DecidableEq, Repr

/-- The name of the action in documents. -/
def UpdateAction.name : UpdateAction → String
  | recompile => "recompile"
  | notify => "notify"

/-- The update of one symbol. -/
structure ReloadUpdate where
  /-- The symbol, under its new identifier if it was renamed. -/
  symbolId : SymbolId
  /-- The identifier before the rename. -/
  previousId : Option SymbolId
  action : UpdateAction
  filePath : Option Path
  /-- The edited spans of the file. -/
  affectedRanges : List Span
  deriving DecidableEq, Repr

/-- Writes an update. -/
def ReloadUpdate.toJson (u : ReloadUpdate) : Json :=
  .record
    ([("symbol_id", u.symbolId.toJson)] ++
      Json.optional "previous_id" SymbolId.toJson u.previousId ++
      [("action", .text u.action.name)] ++
      Json.optional "file_path" Path.toJson u.filePath ++
      [("affected_ranges", Json.list Span.toJson u.affectedRanges)])

/-- What a running program needs to take over renames. -/
structure ReloadPlan where
  updates : List ReloadUpdate
  patches : List PatchRecord
  cascade : Cascade
  deriving Repr

/-- Writes a reload plan. -/
def ReloadPlan.toJson (p : ReloadPlan) : Json :=
  .record
    [("updates", Json.list ReloadUpdate.toJson p.updates),
      ("patches", Json.list PatchRecord.toJson p.patches), ("cascade", p.cascade.toJson)]

namespace Reload

/-- The identifier that a symbol gets; of several renames of it the last counts. -/
def target? (renames : List RenameRequest) (id : SymbolId) : Option SymbolId :=
  (renames.reverse.find? fun r => r.symbolId = id).map RenameRequest.targetId

/-- Symbols with the file that reported each of them first, in the order of the reports. -/
abbrev FileOf := List (SymbolId × Path)

/-- Adds the symbols that a file reports. -/
def FileOf.report (fileOf : FileOf) (path : Path) (symbols : List SymbolId) : FileOf :=
  symbols.foldl
    (fun fileOf id => if (fileOf.lookup id).isSome then fileOf else fileOf ++ [(id, path)]) fileOf

/-- The spans that an edit replaces in a file. -/
def ranges (edit : WorkspaceEdit) (path : Path) : List Span :=
  (edit.editsFor path).map TextEdit.span

/-- The update of a symbol of the cascade. -/
def cascadeUpdate (edit : WorkspaceEdit) (renames : List RenameRequest) (cascade : Cascade)
    (fileOf : FileOf) (id : SymbolId) : ReloadUpdate :=
  let target := target? renames id
  -- The file that a dependency names comes first. Edited files may report a symbol under its new
  -- name already.
  let filePath := ((cascade.entry? id).bind CascadeEntry.filePath).or
    ((fileOf.lookup id).or (target.bind fun new => fileOf.lookup new))
  let touched := filePath.any edit.touches
  { symbolId := target.getD id
    previousId := target.map fun _ => id
    action := if target.isSome || touched then .recompile else .notify
    filePath
    affectedRanges := if touched then (filePath.map (ranges edit)).getD [] else [] }

/-- The update of a symbol that only lies in an edited file. -/
def fileUpdate (edit : WorkspaceEdit) (id : SymbolId) (path : Path) : ReloadUpdate where
  symbolId := id
  previousId := none
  action := .notify
  filePath := some path
  affectedRanges := ranges edit path

/-- The updates of the symbols of the cascade, followed by those of the other symbols of the
    edited files. -/
def updates (edit : WorkspaceEdit) (renames : List RenameRequest) (cascade : Cascade)
    (fileOf : FileOf) : List ReloadUpdate :=
  -- A renamed symbol has its update under the new name, so neither name gets a second one.
  let covered := cascade.order ++ cascade.order.filterMap (target? renames)
  cascade.order.map (cascadeUpdate edit renames cascade fileOf) ++
    (fileOf.filter fun entry => entry.1 ∉ covered).map fun entry =>
      fileUpdate edit entry.1 entry.2

/-- The file of the script that an update recompiles. -/
def scriptFile? (u : ReloadUpdate) : Option Path :=
  if u.action = .recompile ∧ u.symbolId.kind = .script then u.filePath else none

end Reload

namespace Engine

/-- Asks which symbols the files define. -/
def fileSymbols (e : Engine) : (files : List Path) → Reload.FileOf → Inquiry Reload.FileOf
  | [], fileOf => return fileOf
  | path :: rest, fileOf => do
    -- An analyzer that cannot tell knows of no symbols.
    let symbols ← Inquiry.ask (.fileSymbols path) (e.analyzer.fileSymbols path) []
    fileSymbols e rest (fileOf.report path symbols)

/-- The patch of a script. -/
def scriptPatch (e : Engine) (source : ScriptSource) : Inquiry PatchRecord := do
  match ← Inquiry.askSupported (.transpile source) (e.transpiler.transpile source) with
  | some patch => return patch
  | none => return .minimal source.symbolId source.sourceText

/-- The patches of the scripts that the updates recompile. -/
def patches (e : Engine) (read : Path → Except StorageError String) :
    List ReloadUpdate → Inquiry (List PatchRecord)
  | [] => return []
  | u :: us =>
    match Reload.scriptFile? u with
    | none => patches e read us
    | some path => do
      let sourceText ← Inquiry.ofExcept (.application path []) (read path)
      let patch ← e.scriptPatch { sourceText, symbolId := u.symbolId }
      let rest ← patches e read us
      return patch :: rest

/-- Prepares the reload of renames that were written. `read` gives the texts after them. -/
def prepareReload (e : Engine) (edit : WorkspaceEdit) (renames : List RenameRequest)
    (read : Path → Except StorageError String) : Inquiry ReloadPlan := do
  let cascade ← e.cascade (renames.map RenameRequest.symbolId)
  let fileOf ← e.fileSymbols edit.files []
  let updates := Reload.updates edit renames cascade fileOf
  let patches ← e.patches read updates
  return { updates, patches, cascade }

end Engine
end HotRename
