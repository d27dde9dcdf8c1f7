import HotRename.Rename.Apply
import HotRename.Rename.Batch
import HotRename.Rename.Integrity
import HotRename.Rename.Reload

/-!
# Carrying out several renames

The merged edit of a batch is validated and applied as one. Then the files of each rename are
checked on their own, and one reload is prepared for all of them. In a dry run nothing is written,
and the last two steps are left out.
-/

namespace HotRename

/-- What was found in the files of one rename of a batch. -/
structure RenameCheck where
  symbolId : SymbolId
  report : IntegrityReport
  deriving DecidableEq, Repr

/-- Writes a check. -/
def RenameCheck.toJson (c : RenameCheck) : Json :=
  .record [("symbol_id", c.symbolId.toJson), ("report", c.report.toJson)]

/-- The result of a batch. -/
structure BatchOutcome where
  plan : BatchPlan
  validation : ValidationReport
  applied : ApplyResult
  integrity : Option (List RenameCheck)
  hotReload : Option ReloadPlan
  deriving Repr

/-- Writes a result. -/
def BatchOutcome.toJson (o : BatchOutcome) : Json :=
  .record
    ([("plan", o.plan.toJson), ("validation", o.validation.toJson),
        ("applied", o.applied.toJson)] ++
      Json.optional "integrity" (Json.list RenameCheck.toJson) o.integrity ++
      Json.optional "hot_reload" ReloadPlan.toJson o.hotReload)

namespace Engine

variable {σ : Type} [Store σ]

/-- Checks the files of each plan. `read` gives the texts after all renames. -/
def verifyEach (e : Engine) (read : Path → Except StorageError String) :
    List RenamePlan → Inquiry (List RenameCheck)
  | [] => return []
  | p :: ps => do
    -- Each rename is checked in the files that its own plan edits.
    let report ← e.verify p.symbolId p.newName p.edit.files read
    let rest ← verifyEach e read ps
    return { symbolId := p.symbolId, report } :: rest

/-- The steps after a batch was written. `read` gives the texts after it. -/
def finishBatch (e : Engine) (renames : List RenameRequest) (plan : BatchPlan)
    (validation : ValidationReport) (applied : ApplyResult)
    (read : Path → Except StorageError String) : Inquiry BatchOutcome := do
  let integrity ← e.verifyEach read plan.plans
  let reload ← e.prepareReload plan.edit renames read
  return { plan, validation, applied, integrity := some integrity, hotReload := some reload }

/-- Carries out several renames, and gives the store after them. -/
def executeBatch (e : Engine) (renames : List RenameRequest) (dryRun : Bool) (s : σ) :
    Asked (Except RenameError BatchOutcome × σ) := do
  let planned : Inquiry (BatchPlan × ValidationReport) := do
    let plan ← e.planBatch renames
    let validation ← e.validate plan.edit
    return (plan, validation)
  match ← planned.run with
  | .error err => return (.error err, s)
  | .ok (plan, validation) =>
    match Apply.run plan.edit dryRun s with
    | (.error err, s) => return (.error err, s)
    | (.ok applied, s) =>
      if dryRun then
        return (.ok { plan, validation, applied, integrity := none, hotReload := none }, s)
      else
        return (← (e.finishBatch renames plan validation applied (Store.read s)).run, s)

end Engine
end HotRename
