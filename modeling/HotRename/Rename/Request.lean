import HotRename.Edit.Workspace
import HotRename.Rename.Error

/-!
# Requests and plans

A request asks for another name of one symbol. A plan carries the edit that gives the symbol its
new name, one text edit for each occurrence.
-/

namespace HotRename

/-- Gives a symbol a new name. -/
structure RenameRequest where
  symbolId : SymbolId
  newName : String
  deriving DecidableEq, Repr

namespace RenameRequest

/-- The request for the symbol with the given text. -/
def parse (id newName : String) : Except RenameError RenameRequest :=
  match SymbolId.parse id with
  | .ok symbolId => .ok { symbolId, newName }
  | .error e => .error (.invalidInput e.message)

/-- The current name of the symbol. -/
def oldName (r : RenameRequest) : String :=
  r.symbolId.name

/-- The identifier of the symbol after the rename. -/
def targetId (r : RenameRequest) : SymbolId :=
  r.symbolId.withName r.newName

/-- Writes a request. -/
def toJson (r : RenameRequest) : Json :=
  .record [("symbol_id", r.symbolId.toJson), ("new_name", .text r.newName)]

/-- Reads a request. -/
def ofJson? (j : Json) : Option RenameRequest :=
  match j.fields ["symbol_id", "new_name"] with
  | some [symbolId, newName] => do
    return {
      symbolId := ← Json.required SymbolId.ofJson? symbolId
      newName := ← Json.required Json.asText newName }
  | _ => none

end RenameRequest

/-- The edit of one rename. -/
structure RenamePlan where
  symbolId : SymbolId
  oldName : String
  newName : String
  edit : WorkspaceEdit
  /-- The conflicts found, none of which prevents the rename. -/
  notices : List Conflict
  deriving DecidableEq, Repr

namespace RenamePlan

/-- The request that the plan answers. -/
def request (p : RenamePlan) : RenameRequest :=
  { symbolId := p.symbolId, newName := p.newName }

/-- Writes a plan. -/
def toJson (p : RenamePlan) : Json :=
  .record
    ([("symbol_id", p.symbolId.toJson), ("old_name", .text p.oldName),
        ("new_name", .text p.newName), ("edit", p.edit.toJson)] ++
      if p.notices.isEmpty then [] else [("notices", Json.list Conflict.toJson p.notices)])

end RenamePlan

/-- The edits of several renames. -/
structure BatchPlan where
  plans : List RenamePlan
  /-- The edits of all plans in their order. -/
  edit : WorkspaceEdit
  deriving DecidableEq, Repr

/-- Writes a plan for several renames. -/
def BatchPlan.toJson (p : BatchPlan) : Json :=
  .record [("plans", Json.list RenamePlan.toJson p.plans), ("edit", p.edit.toJson)]

end HotRename
