import HotRename.Proofs.Rename.Execute

/-!
# What a failed rename leaves behind

A rename that fails before its first write leaves the store as it was, and so does every error
that only planning, validation and splicing know. When a write fails, the error lists the files
that were renamed. The steps after the last write ask collaborators, which may still fail; by then
the rename is complete. Main statements:

* `finish_error`            the errors of the steps after the last write
* `execute_eq_error`        the parts of a rename in which it can fail
* `execute_error_reported`  what is left of the store, by the kind of the error
* `execute_invalidInput_written`, `execute_application_unlisted`  complete renames whose errors do
  not say so
-/

namespace HotRename.Engine

/-! ## Errors after the last write -/

/-- The errors that are met after all files were written: a name cannot be searched for, a
    collaborator fails, or a script cannot be read. `read` gives the texts after the write. -/
inductive LateError (e : Engine) (names : List String) (read : Path → Except StorageError String) :
    RenameError → Prop where
  | unsearchable {name why : String} (hname : name ∈ names) (h : e.unsearchable? name = some why)
    (reason : String) : LateError e names read (.invalidInput reason)
  | collaborator (error : CollaboratorError) : LateError e names read (.collaborator error)
  | unread {path : Path} {source : StorageError} (h : read path = .error source) :
    LateError e names read (.application path [] source)

variable {e : Engine} {names : List String} {read : Path → Except StorageError String}
  {err : RenameError}

/-- An answer that ends an inquiry is a failure of a collaborator. -/
theorem LateError.of_mapError {α : Type} {answer : Answer α}
    (h : answer.mapError RenameError.collaborator = .error err) : LateError e names read err := by
  obtain ⟨error, -, rfl⟩ := Except.mapError_eq_error.mp h
  exact .collaborator error

/-- A name that is refused cannot be searched for. -/
theorem checkSearchable_error {name : String} (hname : name ∈ names)
    (h : (e.checkSearchable name).result = .error err) : LateError e names read err := by
  unfold checkSearchable at h
  split at h
  · exact nomatch h
  · rename_i why hwhy
    cases h
    exact .unsearchable hname hwhy _

/-- The search for other occurrences fails only with its collaborator. -/
theorem strayWarnings_error {renamed : SymbolId} {files : List Path}
    (h : (e.strayWarnings renamed files).result = .error err) : LateError e names read err := by
  unfold strayWarnings at h
  split at h
  · rw [Inquiry.result_bind] at h
    rcases Except.bind_eq_error.mp h with h | ⟨_, -, h⟩
    · exact .of_mapError h
    · exact nomatch h
  · exact nomatch h

/-- The check fails for one of its names, or in the search for other occurrences. -/
theorem verify_error {id : SymbolId} {newName : String} {edited : List Path}
    (h : (e.verify id newName edited read).result = .error err) :
    LateError e [id.name, newName] read err := by
  simp only [verify, Inquiry.result_bind, Except.bind_eq_error] at h
  rcases h with h | ⟨-, -, h | ⟨-, -, h | ⟨findings, -, h | ⟨warnings, -, h⟩⟩⟩⟩
  · exact checkSearchable_error (by simp) h
  · exact checkSearchable_error (by simp) h
  · exact nomatch h
  · exact strayWarnings_error h
  · exact nomatch h

/-- A cascade fails only with a collaborator. -/
theorem cascade_error {changed : List SymbolId} (h : (e.cascade changed).result = .error err) :
    LateError e names read err :=
  .of_mapError h

/-- So does the query for the symbols of the files. -/
theorem fileSymbols_error {files : List Path} {fileOf : Reload.FileOf}
    (h : (e.fileSymbols files fileOf).result = .error err) : LateError e names read err := by
  induction files generalizing fileOf with
  | nil => exact nomatch h
  | cons path rest ih =>
    rw [fileSymbols, Inquiry.result_bind] at h
    rcases Except.bind_eq_error.mp h with h | ⟨symbols, -, h⟩
    · exact .of_mapError h
    · exact ih h

/-- So does the compilation of a script. -/
theorem scriptPatch_error {source : ScriptSource}
    (h : (e.scriptPatch source).result = .error err) : LateError e names read err := by
  rw [scriptPatch, Inquiry.result_bind] at h
  rcases Except.bind_eq_error.mp h with h | ⟨patch, -, h⟩
  · exact .of_mapError h
  · cases patch <;> exact nomatch h

/-- The patches fail for a script that cannot be read, or with a collaborator. -/
theorem patches_error {updates : List ReloadUpdate}
    (h : (e.patches read updates).result = .error err) : LateError e names read err := by
  induction updates with
  | nil => exact nomatch h
  | cons u us ih =>
    unfold patches at h
    split at h
    · exact ih h
    · simp only [Inquiry.result_bind, Except.bind_eq_error] at h
      -- The read, the transpiler or a later patch may have failed.
      rcases h with h | ⟨sourceText, -, h | ⟨patch, -, h | ⟨rest, -, h⟩⟩⟩
      · obtain ⟨source, hread, rfl⟩ := Except.mapError_eq_error.mp h
        exact .unread hread
      · exact scriptPatch_error h
      · exact ih h
      · exact nomatch h

/-- The reload is prepared after the write, so its errors are late ones. -/
theorem prepareReload_error {edit : WorkspaceEdit} {renames : List RenameRequest}
    (h : (e.prepareReload edit renames read).result = .error err) : LateError e names read err := by
  simp only [prepareReload, Inquiry.result_bind, Except.bind_eq_error] at h
  rcases h with h | ⟨cascade, -, h | ⟨fileOf, -, h | ⟨patches, -, h⟩⟩⟩
  · exact cascade_error h
  · exact fileSymbols_error h
  · exact patches_error h
  · cases h

/-- The errors of the steps after the last write. -/
theorem finish_error {r : RenameRequest} {plan : RenamePlan} {validation : ValidationReport}
    {applied : ApplyResult} (h : (e.finish r plan validation applied read).result = .error err) :
    LateError e [r.oldName, r.newName] read err := by
  simp only [finish, Inquiry.result_bind, Except.bind_eq_error] at h
  rcases h with h | ⟨integrity, -, h | ⟨reload, -, h⟩⟩
  · exact verify_error h
  · exact prepareReload_error h
  · cases h

/-! ## Errors before the first write -/

/-- Planning opens no file. -/
theorem plan_ne_application {r : RenameRequest} {path : Path} {written : List Path}
    {source : StorageError} : (e.plan r).result ≠ .error (.application path written source) := by
  simp [plan, symbolExists, occurrencesOf, Except.bind_eq_error, Except.mapError_eq_error,
    ite_eq_iff]

/-- Neither does validation. -/
theorem validate_ne_application {edit : WorkspaceEdit} {path : Path} {written : List Path}
    {source : StorageError} :
    (e.validate edit).result ≠ .error (.application path written source) := by
  intro h
  simp only [validate, Inquiry.result_bind, Inquiry.result_ite, Except.bind_eq_error,
    Inquiry.result_ofExcept, Except.mapError_eq_error] at h
  rcases h with ⟨_, -, h⟩ | ⟨-, -, h⟩
  · cases h
  · -- The analyzer is asked for its verdict only if the settings say so.
    split at h
    · rcases Except.bind_eq_error.mp h with h | ⟨verdict, -, h⟩
      · obtain ⟨_, -, h⟩ := Except.mapError_eq_error.mp h
        cases h
      · cases verdict with
        | none => cases h
        | some verdict =>
          simp only at h
          split at h <;> cases h
    · cases h

/-- Planning and validating a rename never fails for an access to a file. -/
theorem prepared_ne_application {r : RenameRequest} {path : Path} {written : List Path}
    {source : StorageError} : e.prepared r ≠ .error (.application path written source) := by
  intro h
  simp only [prepared, Except.bind_eq_error] at h
  rcases h with h | ⟨plan, -, h | ⟨validation, -, h⟩⟩
  · exact plan_ne_application h
  · exact validate_ne_application h
  · exact nomatch h

/-! ## The store after a failure -/

/-- A rename fails before its edit is applied, while that is done, or after it. -/
theorem execute_eq_error {σ : Type} [Store σ] {r : RenameRequest} {s s' : σ}
    (h : (e.execute r false s).answer = (.error err, s')) :
    (e.prepared r = .error err ∧ s' = s) ∨
    ∃ plan validation, e.prepared r = .ok (plan, validation) ∧
      (Apply.run plan.edit false s = (.error err, s') ∨
        ∃ applied, Apply.run plan.edit false s = (.ok applied, s') ∧
          LateError e [r.oldName, r.newName] (Store.read s') err) := by
  rw [execute_answer] at h
  rcases hprepared : e.prepared r with err' | ⟨plan, validation⟩
  · rw [hprepared] at h
    cases h
    exact .inl ⟨rfl, rfl⟩
  · simp only [hprepared] at h
    refine .inr ⟨plan, validation, rfl, ?_⟩
    -- What fails behind the write leaves the store that was written.
    rcases hrun : Apply.run plan.edit false s with ⟨err' | applied, s₁⟩
    · simp only [hrun] at h
      cases h
      exact .inl rfl
    · simp only [hrun] at h
      obtain ⟨hfinish, rfl⟩ := Prod.mk.inj h
      exact .inr ⟨applied, rfl, finish_error hfinish⟩

/-- A dry run fails exactly when planning, validation or splicing does. -/
theorem isOk_execute_dry {σ : Type} [Store σ] {r : RenameRequest} {s : σ} :
    (e.execute r true s).answer.1.isOk = true ↔
      ∃ plan validation, e.prepared r = .ok (plan, validation) ∧
        (Apply.compute plan.edit s).isOk = true := by
  rw [execute_answer]
  rcases e.prepared r with err' | ⟨plan, validation⟩
  · exact ⟨nofun, fun ⟨_, _, h, _⟩ => nomatch h⟩
  · simp only [Apply.run]
    -- A dry run ends with the computed texts.
    rcases hcompute : Apply.compute plan.edit s with err' | files
    · constructor
      · intro h
        cases h
      · rintro ⟨_, _, ⟨⟩, h⟩
        rw [hcompute] at h
        cases h
    · refine ⟨fun _ => ⟨plan, validation, rfl, ?_⟩, fun _ => rfl⟩
      rw [hcompute]
      rfl

end HotRename.Engine

namespace HotRename

/-- The given files have the new name at every span of an occurrence, and all others are as they
    were. -/
structure MemoryStore.RenamedIn (s s' : MemoryStore) (newName : String)
    (occurrences : List Occurrence) (files : List Path) : Prop where
  replaced : ∀ f, files.any f.same = true →
    s.ReplacedIn s' f ((Occurrence.spansIn f occurrences).map fun span => (span, newName))
  kept : ∀ f, files.any f.same = false → s'.content? f = s.content? f

/-- No file is renamed when nothing changes. -/
theorem MemoryStore.renamedIn_nil (s : MemoryStore) (newName : String)
    (occurrences : List Occurrence) : s.RenamedIn s newName occurrences [] :=
  ⟨nofun, fun _ _ => rfl⟩

/-- The files in front of one that could not be written are renamed. -/
theorem Apply.StoppedAt.renamedIn {newName : String} {occurrences : List Occurrence}
    {s s' : MemoryStore} {path : Path} {written : List Path}
    (h : StoppedAt (Engine.renameEdit newName occurrences) s s' path written) :
    s.RenamedIn s' newName occurrences written := by
  refine ⟨fun f hf => ?_, h.kept⟩
  rw [← Engine.replacements_renameEdit]
  exact h.replaced f hf

namespace Engine

variable {e : Engine} {r : RenameRequest} {s s' : MemoryStore} {err : RenameError}

/-- Nothing has been written when the dry run fails as well. -/
theorem eq_of_dry_error (h : (e.execute r false s).answer = (.error err, s'))
    (hdry : (e.execute r true s).answer.1.isOk = false) : s' = s := by
  rcases execute_eq_error h with ⟨-, rfl⟩ | ⟨plan, validation, hprepared, hrun⟩
  · rfl
  · -- The dry run has the same plan, so it fails for the splices, before any file is written.
    have hcompute : ∃ err', Apply.compute plan.edit s = .error err' := by
      rcases hcompute : Apply.compute plan.edit s with err' | files
      · exact ⟨err', rfl⟩
      · rw [isOk_execute_dry.mpr ⟨plan, validation, hprepared, by rw [hcompute]; rfl⟩] at hdry
        exact nomatch hdry
    obtain ⟨err', hcompute⟩ := hcompute
    simp only [Apply.run, hcompute, Prod.mk.injEq, reduceCtorEq, false_and, exists_false,
      or_false] at hrun
    exact hrun.2.symm

/-- What an error says about the store that it leaves. The files that an error about an edited
    file lists are renamed, and all others are as they were. A collaborator that failed although
    the dry run does not fail has done so after the last write: the rename is complete. All other
    errors leave the store as it was, provided that the names can be searched for. -/
def Reported (e : Engine) (r : RenameRequest) (s s' : MemoryStore) : RenameError → Prop
  | .application path written _ =>
    ∀ occurrences, e.analyzer.occurrences r.symbolId = .ok occurrences →
      (∃ o ∈ occurrences, path.same o.path = true) →
      s.RenamedIn s' r.newName occurrences written
  | .collaborator _ =>
    (e.execute r true s).answer.1.isOk = true →
      ∃ occurrences, e.analyzer.occurrences r.symbolId = .ok occurrences ∧
        s.Renamed s' r.newName occurrences
  | .invalidInput _ =>
    e.unsearchable? r.oldName = none → e.unsearchable? r.newName = none → s' = s
  | _ => s' = s

/-- An error before the write says so, or says nothing of the files. -/
theorem reported_of_prepared (h : e.prepared r = .error err) : e.Reported r s s err := by
  cases err with
  | application path written source => exact absurd h prepared_ne_application
  | collaborator error =>
    intro hdry
    obtain ⟨_, _, hprepared, -⟩ := isOk_execute_dry.mp hdry
    rw [h] at hprepared
    exact nomatch hprepared
  | invalidInput reason => exact fun _ _ => rfl
  | _ => rfl

/-- An error of the write lists the files that were written. -/
theorem reported_of_run {occurrences : List Occurrence}
    (hocc : e.analyzer.occurrences r.symbolId = .ok occurrences)
    (h : Apply.run (renameEdit r.newName occurrences) false s = (.error err, s')) :
    e.Reported r s s' err := by
  rcases Apply.run_error h with ⟨bad, rfl, hs⟩ | ⟨path, source, rfl, -, rfl⟩ |
    ⟨path, written, source, rfl, -, -, hstopped⟩
  · exact hs
  · exact fun _ _ _ => MemoryStore.renamedIn_nil _ _ _
  · -- The analyzer has one answer, so these are the occurrences of the plan.
    intro occurrences' hocc' _
    cases hocc.symm.trans hocc'
    exact hstopped.renamedIn

/-- An error after the write leaves a complete rename. -/
theorem reported_of_late {occurrences : List Occurrence}
    (hocc : e.analyzer.occurrences r.symbolId = .ok occurrences)
    (hrenamed : s.Renamed s' r.newName occurrences)
    (h : LateError e [r.oldName, r.newName] (Store.read s') err) : e.Reported r s s' err := by
  cases h with
  | unsearchable hname hwhy reason =>
    -- It is one of the two names that cannot be searched for.
    intro hold hnew
    simp only [List.mem_cons, List.not_mem_nil, or_false] at hname
    rcases hname with rfl | rfl
    · exact nomatch hold.symm.trans hwhy
    · exact nomatch hnew.symm.trans hwhy
  | collaborator error => exact fun _ => ⟨occurrences, hocc, hrenamed⟩
  | unread hread =>
    -- A file with an occurrence is still there, so it is not the one that could not be read.
    intro occurrences' hocc' hpath
    cases hocc.symm.trans hocc'
    obtain ⟨old, new, -, hnew, -⟩ := hrenamed.replaced _ hpath
    exact nomatch hread.symm.trans (MemoryStore.read_eq_ok_iff.mpr hnew)

/-- A failed rename leaves the store as it was if the dry run fails as well, and otherwise as its
    error says. -/
theorem execute_error_reported (h : (e.execute r false s).answer = (.error err, s')) :
    ((e.execute r true s).answer.1.isOk = false → s' = s) ∧ e.Reported r s s' err := by
  refine ⟨eq_of_dry_error h, ?_⟩
  rcases execute_eq_error h with ⟨hprepared, rfl⟩ | ⟨plan, validation, hprepared, hrun⟩
  · exact reported_of_prepared hprepared
  · obtain ⟨occurrences, hocc, hedit⟩ := prepared_ok hprepared
    rw [hedit] at hrun
    rcases hrun with hrun | ⟨applied, hrun, hlate⟩
    · exact reported_of_run hocc hrun
    · exact reported_of_late hocc (Apply.run_ok hrun).1.renamed hlate

/-! ## A collaborator that fails after the write -/

/-- The query for dependents comes after the write, and fails. -/
theorem execute_hp_dependents :
    ((knowing hp hpOccurrences [.dependents]).execute ⟨hp, "life"⟩ false hpStore).answer =
      (.error (.collaborator (.failed .dependents "stub failure")), lifeStore) := by
  have hverify : ((knowing hp hpOccurrences [.dependents]).verify hp "life" [⟨"a.gml"⟩]
      (Store.read lifeStore)).result =
      .ok { valid := true, errors := [], warnings := [], filesChecked := 1 } :=
    Except.toOption_eq_some.mp (by decide +kernel)
  have hcascade : ((knowing hp hpOccurrences [.dependents]).cascade [hp]).result =
      .error (.collaborator (.failed .dependents "stub failure")) := by cbv
  -- The check passes, and the preparation of the reload stops at its first question.
  have hfinish : ((knowing hp hpOccurrences [.dependents]).finish ⟨hp, "life"⟩ hpPlan
      { files := 1, edits := 2, warnings := [] }
      { files := [(⟨"a.gml"⟩, "é life = life;")], written := true }
      (Store.read lifeStore)).result =
      .error (.collaborator (.failed .dependents "stub failure")) := by
    simp only [finish, prepareReload, Inquiry.result_bind, List.map_cons, List.map_nil, hcascade]
    rw [show ApplyResult.paths _ = [⟨"a.gml"⟩] from rfl, hverify]
    rfl
  rw [execute_answer, prepared_hp (.inr rfl)]
  simp only [hpPlan, run_hpOccurrences]
  exact Prod.ext hfinish rfl

/-- The error of a collaborator may come from a rename that is complete. -/
theorem execute_error_unreported :
    ∃ (e : Engine) (r : RenameRequest) (s s' : MemoryStore) (error : CollaboratorError) (f : Path),
      (e.execute r false s).answer = (.error (.collaborator error), s') ∧
        s'.content? f ≠ s.content? f :=
  ⟨_, _, _, _, _, ⟨"a.gml"⟩, execute_hp_dependents, by decide +kernel⟩

/-- What this error says about the store. -/
theorem execute_error_reported_dependents :
    let e := knowing hp hpOccurrences [.dependents]
    (e.execute ⟨hp, "life"⟩ false hpStore).answer =
        (.error (.collaborator (.failed .dependents "stub failure")), lifeStore) ∧
      ((e.execute ⟨hp, "life"⟩ true hpStore).answer.1.isOk = false → lifeStore = hpStore) ∧
      e.Reported ⟨hp, "life"⟩ hpStore lifeStore
        (.collaborator (.failed .dependents "stub failure")) :=
  ⟨execute_hp_dependents, execute_error_reported execute_hp_dependents⟩

/-! ## A name that cannot be searched for

The names are checked when the written files are, so a new name that cannot be searched for is
refused after the write. -/

/-- The engine that knows the variable and cannot search for its new name. -/
def unsearching : Engine :=
  { knowing hp hpOccurrences [] with
    unsearchable? := fun name => if name = "life" then some "too long" else none }

/-- The input is refused as invalid, and the rename is complete. -/
theorem execute_invalidInput_written :
    (unsearching.execute ⟨hp, "life"⟩ false hpStore).answer =
        (.error (.invalidInput "cannot search for 'life': too long"), lifeStore) ∧
      lifeStore.content? ⟨"a.gml"⟩ ≠ hpStore.content? ⟨"a.gml"⟩ := by
  have hprepared : unsearching.prepared ⟨hp, "life"⟩ =
      .ok (hpPlan, { files := 1, edits := 2, warnings := [] }) := prepared_hp (.inl rfl)
  refine ⟨?_, by decide +kernel⟩
  rw [execute_answer, hprepared]
  simp only [hpPlan, run_hpOccurrences]
  rfl

/-! ## A script that cannot be read

The patch of a recompiled script is made from the file that a dependent of that symbol names, which
need not be one of the files of its occurrences. -/

/-- A script. -/
def selfScript : SymbolId := ⟨["proj", "script"], "s"⟩

/-- The engine that knows the script, and that it calls itself in a file that is not there. -/
def selfCalling : Engine :=
  { analyzer := AnalyzerTables.analyzer
      { occurrences := some [(selfScript, [⟨⟨"a.gml"⟩, 0, 1, none, .reference⟩])]
        dependents := some [(selfScript, ⟨selfScript, some ⟨"missing.gml"⟩⟩)] } }

/-- A project with the script under the given name. -/
def selfStore (name : String) (writes : Nat) : MemoryStore where
  files := [(⟨"a.gml"⟩, name ++ "();")]
  failing := []
  writes

/-- The plan for the script. -/
def selfPlan : RenamePlan where
  symbolId := selfScript
  oldName := "s"
  newName := "t"
  edit := renameEdit "t" [⟨⟨"a.gml"⟩, 0, 1, none, .reference⟩]
  notices := []

/-- The cascade of the script: the script alone, with the file that is missing. -/
def selfCascade : Cascade where
  entries := [⟨selfScript, 0, "changed directly", some ⟨"missing.gml"⟩⟩]
  order := [selfScript]
  circular := [[selfScript, selfScript]]
  totalSymbols := 1
  maxDistance := 0
  hasCircular := true

/-- The walk takes one step, and learns there where the script is. -/
theorem cascade_selfScript : (selfCalling.cascade [selfScript]).result = .ok selfCascade := by
  rw [cascade_of_walk (Cascade.walk_expand rfl List.not_mem_nil rfl fun _ => Cascade.walk_nil rfl)]
  cbv

/-- The rename of the script is planned. -/
theorem prepared_selfScript : selfCalling.prepared ⟨selfScript, "t"⟩ =
    .ok (selfPlan, { files := 1, edits := 1, warnings := [] }) := by
  have hplan : (selfCalling.plan ⟨selfScript, "t"⟩).result = .ok selfPlan :=
    Except.toOption_eq_some.mp (by decide +kernel)
  have hvalidate : (selfCalling.validate selfPlan.edit).result =
      .ok { files := 1, edits := 1, warnings := [] } :=
    Except.toOption_eq_some.mp (by decide +kernel)
  exact Except.bind_eq_ok.mpr ⟨_, hplan, Except.bind_eq_ok.mpr ⟨_, hvalidate, rfl⟩⟩

/-- Its edit is carried out. -/
theorem run_selfScript : Apply.run selfPlan.edit false (selfStore "s" 0) =
    (.ok { files := [(⟨"a.gml"⟩, "t();")], written := true }, selfStore "t" 1) := by
  have hgroups : selfPlan.edit.groups = [(⟨"a.gml"⟩, [⟨⟨"a.gml"⟩, 0, 1, "t"⟩])] := by
    decide +kernel
  have hvalid : selfPlan.edit.validate = .ok () := by
    rw [WorkspaceEdit.validate, hgroups]
    rfl
  exact Apply.run_of_oneGroup hvalid hgroups rfl
    (Splice.apply_of_tailFirst (by decide) (by decide) (by decide)) rfl

/-- The update of the script. -/
def selfUpdate : ReloadUpdate :=
  ⟨⟨["proj", "script"], "t"⟩, some selfScript, .recompile, some ⟨"missing.gml"⟩, []⟩

/-- The source of the script is to be read where it is not. -/
theorem patches_selfScript :
    (selfCalling.patches (Store.read (selfStore "t" 1)) [selfUpdate]).result =
      .error (.application ⟨"missing.gml"⟩ [] (.notFound ⟨"missing.gml"⟩)) := by
  have hscript : Reload.scriptFile? selfUpdate = some ⟨"missing.gml"⟩ := by decide +kernel
  have hread : Store.read (selfStore "t" 1) ⟨"missing.gml"⟩ =
      .error (.notFound ⟨"missing.gml"⟩) := rfl
  simp only [patches, hscript, hread, Inquiry.result_bind, Inquiry.result_ofExcept]
  rfl

/-- The check passes, and the preparation of the reload fails. -/
theorem finish_selfScript : (selfCalling.finish ⟨selfScript, "t"⟩ selfPlan
    { files := 1, edits := 1, warnings := [] }
    { files := [(⟨"a.gml"⟩, "t();")], written := true } (Store.read (selfStore "t" 1))).result =
      .error (.application ⟨"missing.gml"⟩ [] (.notFound ⟨"missing.gml"⟩)) := by
  -- The file that was written passes the check; the reload then asks for a file that is not there.
  have hverify : (selfCalling.verify selfScript "t" [⟨"a.gml"⟩]
      (Store.read (selfStore "t" 1))).result =
      .ok { valid := true, errors := [], warnings := [], filesChecked := 1 } :=
    Except.toOption_eq_some.mp (by decide +kernel)
  have hfiles : (selfCalling.fileSymbols selfPlan.edit.files []).result = .ok [] := by
    rw [show selfPlan.edit.files = [⟨"a.gml"⟩] by decide +kernel]
    rfl
  have hupdates : Reload.updates selfPlan.edit [⟨selfScript, "t"⟩] selfCascade [] =
      [selfUpdate] := by
    decide +kernel
  simp only [finish, prepareReload, Inquiry.result_bind, List.map_cons, List.map_nil,
    cascade_selfScript]
  rw [show ApplyResult.paths _ = [⟨"a.gml"⟩] from rfl, hverify, hfiles]
  simp only [Except.ok_bind, hupdates, patches_selfScript]
  rfl

/-- The error is about a file that no occurrence names and lists no written file, and the rename is
    complete. -/
theorem execute_application_unlisted :
    (selfCalling.execute ⟨selfScript, "t"⟩ false (selfStore "s" 0)).answer =
        (.error (.application ⟨"missing.gml"⟩ [] (.notFound ⟨"missing.gml"⟩)), selfStore "t" 1) ∧
      (selfStore "t" 1).content? ⟨"a.gml"⟩ ≠ (selfStore "s" 0).content? ⟨"a.gml"⟩ := by
  refine ⟨?_, by decide +kernel⟩
  rw [execute_answer, prepared_selfScript]
  simp only [run_selfScript]
  exact Prod.ext finish_selfScript rfl

end Engine
end HotRename
