import HotRename.Rename.Apply
import HotRename.Rename.Integrity
import HotRename.Rename.Plan
import HotRename.Rename.Reload

/-!
# Carrying out a rename

A rename is planned, validated and applied; then the written files are checked and the reload is
prepared. In a dry run nothing is written, and the last two steps are left out.
-/

namespace HotRename

/-- The result of a rename. -/
structure RenameOutcome where
  plan : RenamePlan
  validation : ValidationReport
  applied : ApplyResult
  integrity : Option IntegrityReport
  hotReload : Option ReloadPlan
  deriving Repr

/-- Writes a result. -/
def RenameOutcome.toJson (o : RenameOutcome) : Json :=
  .record
    ([("plan", o.plan.toJson), ("validation", o.validation.toJson),
        ("applied", o.applied.toJson)] ++
      Json.optional "integrity" IntegrityReport.toJson o.integrity ++
      Json.optional "hot_reload" ReloadPlan.toJson o.hotReload)

namespace Engine

variable {σ : Type} [Store σ]

/-- The steps after a rename was written. `read` gives the texts after it. -/
def finish (e : Engine) (r : RenameRequest) (plan : RenamePlan) (validation : ValidationReport)
    (applied : ApplyResult) (read : Path → Except StorageError String) :
    Inquiry RenameOutcome := do
  let integrity ← e.verify r.symbolId r.newName applied.paths read
  let reload ← e.prepareReload plan.edit [r] read
  return { plan, validation, applied, integrity := some integrity, hotReload := some reload }

/-- Carries out a rename, and gives the store after it. -/
def execute (e : Engine) (r : RenameRequest) (dryRun : Bool) (s : σ) :
    Asked (Except RenameError RenameOutcome × σ) := do
  let planned : Inquiry (RenamePlan × ValidationReport) := do
    let plan ← e.plan r
    let validation ← e.validate plan.edit
    return (plan, validation)
  match ← planned.run with
  | .error err => return (.error err, s)
  | .ok (plan, validation) =>
    match Apply.run plan.edit dryRun s with
    -- Some files may have been written before the error, so the store is the one after them.
    | (.error err, s) => return (.error err, s)
    | (.ok applied, s) =>
      if dryRun then
        return (.ok { plan, validation, applied, integrity := none, hotReload := none }, s)
      else
        return (← (e.finish r plan validation applied (Store.read s)).run, s)

end Engine
end HotRename
