import HotRename.Proofs.Rename.Batch
import HotRename.Proofs.Rename.Execute
import HotRename.Rename.ExecuteBatch

/-!
# A batch of one rename

A batch is planned by other checks than a single rename, validates its edit earlier, and finds the
files to check in its plan instead of the result of applying it. For a batch of one rename all of
this comes to the same, as long as each file is spelled one way. Main statements:

* `executeBatch_answer`      a batch as plan, application and the steps after it
* `preparedBatch_singleton`  planning and validating a batch of one
* `executeBatch_singleton`   carrying it out
-/

namespace HotRename

/-- The result of a rename, as that of a batch. -/
def RenameOutcome.asBatch (o : RenameOutcome) : BatchOutcome where
  plan := { plans := [o.plan], edit := o.plan.edit }
  validation := o.validation
  applied := o.applied
  integrity := o.integrity.map fun report => [{ symbolId := o.plan.symbolId, report }]
  hotReload := o.hotReload

namespace Batch

variable {r : RenameRequest}

/-! ## The checks of a batch of one -/

/-- A rename to another name makes a consistent batch. -/
theorem consistent_singleton (hname : Identifier.isName r.newName.toList = true)
    (hne : r.newName ≠ r.oldName) : Consistent [r] where
  ne_nil := List.cons_ne_nil _ _
  names := List.forall_mem_singleton.mpr hname
  sources := List.nodup_singleton _
  targets := List.nodup_singleton _
  chains := by
    intro chain hsub hclosed
    obtain ⟨first, hfirst, second, hsecond, hlink⟩ := hclosed.exists_link
    -- Both are the one request, which would give its symbol the identifier that it has.
    rw [List.mem_singleton.mp (hsub hfirst), List.mem_singleton.mp (hsub hsecond)] at hlink
    exact hne (congrArg SymbolId.name hlink)

/-- The checks of a batch of one come down to that of its name. -/
theorem check_singleton (hne : r.newName ≠ r.oldName) :
    check [r] = (Identifier.validate r.newName).mapError .invalidIdentifier := by
  cases hname : Identifier.validate r.newName with
  | error err =>
    simp only [check, checkNames, hname]
    rfl
  | ok _ =>
    exact check_eq_ok_iff.mpr
      (consistent_singleton (Identifier.validate_eq_ok_iff.mp hname) hne)

end Batch

namespace Engine

variable {e : Engine} {r : RenameRequest}

/-! ## The steps of a batch -/

/-- The plan of a batch, and what validation says about its edit. -/
def preparedBatch (e : Engine) (renames : List RenameRequest) :
    Except RenameError (BatchPlan × ValidationReport) := do
  let plan ← (e.planBatch renames).result
  let validation ← (e.validate plan.edit).result
  return (plan, validation)

/-- A batch as its three parts, of which only the second changes the store. -/
theorem executeBatch_answer {σ : Type} [Store σ] (e : Engine) (renames : List RenameRequest)
    (dryRun : Bool) (s : σ) :
    (e.executeBatch renames dryRun s).answer =
      match e.preparedBatch renames with
      | .error err => (.error err, s)
      | .ok (plan, validation) =>
        match Apply.run plan.edit dryRun s with
        | (.error err, s') => (.error err, s')
        | (.ok applied, s') =>
          if dryRun then
            (.ok { plan, validation, applied, integrity := none, hotReload := none }, s')
          else ((e.finishBatch renames plan validation applied (Store.read s')).result, s') := by
  -- Nothing is written before the plan was validated.
  have hprepared : Inquiry.result (do
      let plan ← e.planBatch renames
      let validation ← e.validate plan.edit
      return (plan, validation)) = e.preparedBatch renames := by
    simp only [Inquiry.result_bind, Inquiry.result_pure]
    rfl
  rw [executeBatch, Asked.answer_bind, Inquiry.run_answer, hprepared]
  rcases e.preparedBatch renames with err | ⟨plan, validation⟩
  · rfl
  · dsimp only
    rcases Apply.run plan.edit dryRun s with ⟨err | applied, s'⟩
    · rfl
    · cases dryRun <;> rfl

/-! ## A batch of one -/

/-- A batch of one is planned like its rename, and then validated unless it is empty. -/
theorem planBatch_singleton (hne : r.newName ≠ r.oldName) :
    (e.planBatch [r]).result = do
      let plan ← (e.plan r).result
      unless plan.edit.isEmpty do
        plan.edit.validate.mapError .edit
      return { plans := [plan], edit := plan.edit } := by
  rw [planBatch, Inquiry.result_bind, Inquiry.result_ofExcept, Batch.check_singleton hne]
  cases hname : Identifier.validate r.newName with
  | error err =>
    -- The rename alone is refused for the same name.
    have hplan : (e.plan r).result = .error (.invalidIdentifier err) := by
      simp only [plan, Inquiry.result_bind, Inquiry.result_ofExcept, hname]
      rfl
    rw [hplan]
    rfl
  | ok _ =>
    have hmerged (plan : RenamePlan) : Batch.mergedEdit [plan] = plan.edit := by
      simp [Batch.mergedEdit]
    simp only [planEach, Inquiry.result_bind, Inquiry.result_ite, Inquiry.result_ofExcept,
      Inquiry.result_pure]
    cases (e.plan r).result with
    | error err => rfl
    | ok plan =>
      simp only [Except.ok_bind, hmerged]
      split <;> rfl

/-- A batch of one is prepared as its rename is: what its early validation refuses, the later one
    refuses with the same error. -/
theorem preparedBatch_singleton (hne : r.newName ≠ r.oldName) :
    e.preparedBatch [r] =
      (e.prepared r).map fun x => ({ plans := [x.1], edit := x.1.edit }, x.2) := by
  rw [preparedBatch, planBatch_singleton hne, prepared]
  cases (e.plan r).result with
  | error err => rfl
  | ok plan =>
    rw [Except.ok_bind, Except.ok_bind]
    split
    · rw [pure_bind]
      cases (e.validate plan.edit).result <;> rfl
    · cases hvalid : plan.edit.validate with
      | ok _ =>
        rw [Except.mapError_ok, Except.ok_bind, pure_bind]
        cases (e.validate plan.edit).result <;> rfl
      | error err =>
        -- The second validation makes the same checks as the first.
        have hvalidate : (e.validate plan.edit).result = .error (.edit err) := by
          simp only [validate, Inquiry.result_bind, Inquiry.result_ofExcept, hvalid]
          rfl
        rw [hvalidate]
        rfl

/-- A plan answers the request that it was made for. -/
theorem request_of_prepared {plan : RenamePlan} {validation : ValidationReport}
    (h : e.prepared r = .ok (plan, validation)) : plan.request = r := by
  obtain ⟨plan', hplan, h⟩ := Except.bind_eq_ok.mp h
  obtain ⟨_, -, h⟩ := Except.bind_eq_ok.mp h
  cases h
  obtain ⟨-, -, -, -, -, -, rfl⟩ := plan_eq_ok.mp hplan
  rfl

/-- The files to check do not depend on how their paths are collected. -/
theorem verify_congr {id : SymbolId} {newName : String} {files files' : List Path}
    (h : Path.set files = Path.set files') (read : Path → Except StorageError String) :
    e.verify id newName files read = e.verify id newName files' read := by
  rw [verify, verify, h]

/-- The steps after a batch of one are those after its rename. -/
theorem finishBatch_singleton {plan : RenamePlan} {applied : ApplyResult}
    (hplan : plan.request = r) (hfiles : Path.set applied.paths = Path.set plan.edit.files)
    (validation : ValidationReport) (read : Path → Except StorageError String) :
    (e.finishBatch [r] { plans := [plan], edit := plan.edit } validation applied read).result =
      (e.finish r plan validation applied read).result.map RenameOutcome.asBatch := by
  subst hplan
  simp only [finishBatch, finish, verifyEach, Inquiry.result_bind, Inquiry.result_pure,
    verify_congr hfiles, RenamePlan.request]
  -- Both verify the rename, then prepare the reload; the files are the same as a set.
  cases (e.verify plan.symbolId plan.newName plan.edit.files read).result with
  | error err => rfl
  | ok report =>
    simp only [Except.ok_bind]
    cases (e.prepareReload plan.edit [⟨plan.symbolId, plan.newName⟩] read).result <;> rfl

/-- The files that were written are those of the edit, if each file is spelled one way. -/
theorem paths_eq_files {σ : Type} [Store σ] {edit : WorkspaceEdit} {s s' : σ}
    {applied : ApplyResult} (hspelled : Path.SpelledOneWay (edit.edits.map TextEdit.path))
    (h : Apply.run edit false s = (.ok applied, s')) : applied.paths = edit.files :=
  (Apply.compute_ok (Apply.run_eq_ok h).1).1.trans hspelled.keys_eq_set

/-- A batch of one rename to another name does what the rename does, if the analyzer spells each
    file one way. -/
theorem executeBatch_singleton {σ : Type} [Store σ] (hne : r.newName ≠ r.oldName)
    (hspelled : ∀ occurrences, e.analyzer.occurrences r.symbolId = .ok occurrences →
      Path.SpelledOneWay (occurrences.map Occurrence.path))
    (dryRun : Bool) (s : σ) :
    (e.executeBatch [r] dryRun s).answer =
      ((e.execute r dryRun s).answer.1.map RenameOutcome.asBatch,
        (e.execute r dryRun s).answer.2) := by
  rw [executeBatch_answer, execute_answer, preparedBatch_singleton hne]
  rcases hprepared : e.prepared r with err | ⟨plan, validation⟩
  · rfl
  · obtain ⟨occurrences, hocc, hedit⟩ := prepared_ok hprepared
    have hpaths : plan.edit.edits.map TextEdit.path = occurrences.map Occurrence.path := by
      rw [hedit, renameEdit, List.map_map]
      rfl
    simp only [Except.map]
    rcases hrun : Apply.run plan.edit dryRun s with ⟨err | applied, s'⟩
    · rfl
    · cases dryRun with
      | true => rfl
      | false =>
        -- The batch checks the files of its edit, the rename those that were written.
        have hfiles : applied.paths = plan.edit.files :=
          paths_eq_files (hpaths ▸ hspelled occurrences hocc) hrun
        have hfinish := finishBatch_singleton (e := e) (request_of_prepared hprepared)
          (congrArg Path.set hfiles) validation (Store.read s')
        exact Prod.ext hfinish rfl

end Engine
end HotRename
