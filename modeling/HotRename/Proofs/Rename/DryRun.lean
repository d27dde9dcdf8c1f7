import HotRename.Proofs.Rename.Execute

/-!
# Dry runs

A dry run goes as far as the new texts of the files and stops before the first of them is written.
So it shows what the rename is about to write, and whatever makes it fail makes the rename fail
before any file is touched. Nothing here depends on the kind of store. Main statements:

* `Apply.run_true`         applying an edit in a dry run computes its files
* `execute_true`           a dry run of a rename as its parts
* `execute_false_error`    the rename fails with the error of its parts, and writes nothing
* `execute_dry_faithful`   the dry run against the rename itself
-/

namespace HotRename

variable {σ : Type} [Store σ]

/-! ## Applying an edit -/

namespace Apply

/-- In a dry run the files are computed, and the store is left alone. -/
theorem run_true (edit : WorkspaceEdit) (s : σ) :
    run edit true s = ((compute edit s).map fun files => { files, written := false }, s) := by
  unfold run
  cases compute edit s <;> rfl

/-- Files that cannot be computed are not written. -/
theorem run_of_compute_error {edit : WorkspaceEdit} {dryRun : Bool} {s : σ} {err : RenameError}
    (h : compute edit s = .error err) : run edit dryRun s = (.error err, s) := by
  rw [run, h]

end Apply

/-! ## Renames -/

namespace Engine

variable {e : Engine} {r : RenameRequest} {s s' : σ} {err : RenameError}

/-- What a rename would write: the plan, what validation says about it, and the new texts. -/
def foretold (e : Engine) (r : RenameRequest) (s : σ) : Except RenameError RenameOutcome := do
  let (plan, validation) ← e.prepared r
  let files ← Apply.compute plan.edit s
  return {
    plan
    validation
    applied := { files, written := false }
    integrity := none
    hotReload := none }

/-- A dry run tells what the rename would write, and leaves the store alone. -/
theorem execute_true (e : Engine) (r : RenameRequest) (s : σ) :
    (e.execute r true s).answer = (e.foretold r s, s) := by
  rw [execute_answer, foretold]
  cases e.prepared r with
  | error err => rfl
  | ok prepared =>
    simp only [Apply.run_true, Except.ok_bind]
    cases Apply.compute prepared.1.edit s <;> rfl

/-- The parts of a rename that went through are those that were foretold. -/
theorem foretold_of_execute {o : RenameOutcome}
    (h : (e.execute r false s).answer = (.ok o, s')) :
    e.foretold r s = .ok {
      plan := o.plan
      validation := o.validation
      applied := { files := o.applied.files, written := false }
      integrity := none
      hotReload := none } := by
  obtain ⟨plan, validation, applied, hprepared, hrun, hfinish⟩ := execute_eq_ok.mp h
  obtain ⟨hcompute, -⟩ := Apply.run_eq_ok hrun
  -- The steps after the write add to the outcome and change nothing that is in it.
  have hparts : o.plan = plan ∧ o.validation = validation ∧ o.applied = applied := by
    simp only [finish, Inquiry.result_bind, Inquiry.result_pure, Except.bind_eq_ok] at hfinish
    obtain ⟨integrity, -, reload, -, houtcome⟩ := hfinish
    cases houtcome
    exact ⟨rfl, rfl, rfl⟩
  obtain ⟨rfl, rfl, rfl⟩ := hparts
  rw [foretold, hprepared, Except.ok_bind]
  dsimp only
  rw [hcompute, Except.ok_bind]
  rfl

/-- What cannot be foretold fails before the first write. -/
theorem execute_false_error (h : e.foretold r s = .error err) :
    (e.execute r false s).answer = (.error err, s) := by
  rw [execute_answer]
  rcases Except.bind_eq_error.mp h with hprepared | ⟨⟨plan, validation⟩, hprepared, h⟩
  · rw [hprepared]
  · rw [hprepared]
    rcases Except.bind_eq_error.mp h with hcompute | ⟨files, -, h⟩
    · simp only [Apply.run_of_compute_error hcompute]
    · cases h

/-- A dry run leaves the store as it is. It has the plan, the validation report and the texts of
    the rename that goes through, without an integrity report and a reload plan. Where it fails,
    the rename fails with the same error and leaves the store as it is. -/
theorem execute_dry_faithful (e : Engine) (r : RenameRequest) (s : σ) :
    (e.execute r true s).answer.2 = s ∧
    (∀ o s', (e.execute r false s).answer = (.ok o, s') →
      (e.execute r true s).answer.1 = .ok {
        plan := o.plan
        validation := o.validation
        applied := { files := o.applied.files, written := false }
        integrity := none
        hotReload := none }) ∧
    (∀ err, (e.execute r true s).answer.1 = .error err →
      (e.execute r false s).answer = (.error err, s)) := by
  rw [execute_true]
  refine ⟨rfl, ?_, ?_⟩
  · intro o s' h
    exact foretold_of_execute h
  · intro err h
    exact execute_false_error h

/-- A store without the file in which the variable occurs. -/
def strayStore : MemoryStore where
  files := [(⟨"b.gml"⟩, "hp")]
  failing := []
  writes := 0

/-- The file is missing already when the texts are computed. -/
theorem foretold_strayStore : (knowing hp hpOccurrences []).foretold ⟨hp, "life"⟩ strayStore =
    .error (.application ⟨"a.gml"⟩ [] (.notFound ⟨"a.gml"⟩)) := by
  rw [foretold, prepared_hp (.inl rfl), Except.ok_bind]
  simp only [hpPlan, Apply.compute, WorkspaceEdit.validate, groups_hpOccurrences]
  rfl

/-- A rename that goes through, and one that fails, with their dry runs. -/
theorem execute_dry_faithful_hp :
    let e := knowing hp hpOccurrences []
    (∃ o, (e.execute ⟨hp, "life"⟩ false hpStore).answer = (.ok o, lifeStore) ∧
      (e.execute ⟨hp, "life"⟩ true hpStore).answer = (.ok {
        plan := o.plan
        validation := o.validation
        applied := { files := o.applied.files, written := false }
        integrity := none
        hotReload := none }, hpStore)) ∧
    ∃ err, (e.execute ⟨hp, "life"⟩ true strayStore).answer.1 = .error err ∧
      (e.execute ⟨hp, "life"⟩ false strayStore).answer = (.error err, strayStore) := by
  obtain ⟨o, hfinish⟩ := Except.isOk_iff.mp finish_hp
  have hreal := execute_eq_ok.mpr ⟨_, _, _, prepared_hp (.inl rfl), run_hpOccurrences, hfinish⟩
  obtain ⟨hstore, hok, -⟩ :=
    execute_dry_faithful (knowing hp hpOccurrences []) ⟨hp, "life"⟩ hpStore
  obtain ⟨-, -, hfail⟩ :=
    execute_dry_faithful (knowing hp hpOccurrences []) ⟨hp, "life"⟩ strayStore
  have hstray := congrArg Prod.fst
    (execute_true (knowing hp hpOccurrences []) ⟨hp, "life"⟩ strayStore)
  rw [foretold_strayStore] at hstray
  exact ⟨⟨o, hreal, Prod.ext (hok o _ hreal) hstore⟩, _, hstray, hfail _ hstray⟩

end Engine
end HotRename
