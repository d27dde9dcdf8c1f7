import HotRename.Proofs.Rename.Leftovers
import HotRename.Proofs.Rename.Reload
import HotRename.Proofs.Store.ReadBack

/-!
# Patches of recompiled scripts

The scripts that a reload recompiles get a patch each, in the order of their updates, if their files
are known. A patch is made under the identifier that the script has after the renames, from the text
that the store holds by then. Where a rename has written to the file, this is the text that was
written there last. In memory it is the text that the rename reports for the file. On disk two paths
may lead to one file: both texts are reported, and the patch is made from that of the greater path.
Main statements:

* `patches_eq_ok_iff`       the patches of updates, one by one
* `read_run`                what is read where an edit has written
* `patches_exact`           the patches of a reload, and those after a rename
* `patch_of_another_text`   a patch that is not made from the text reported for its path
-/

namespace HotRename

/-- The patch of a script: the one that the transpiler makes, or one that carries the text only if
    the transpiler cannot make patches. There is none if the transpiler fails. -/
def Transpiler.patch? (t : Transpiler) (source : ScriptSource) : Option PatchRecord :=
  match t.transpile source with
  | .ok patch => some patch
  | .error (.unsupported _) => some (.minimal source.symbolId source.sourceText)
  | .error (.failed _ _) => none

namespace Reload

/-- The update recompiles a script whose file is known. -/
def IsPatched (u : ReloadUpdate) : Prop :=
  u.action = .recompile ∧ u.symbolId.kind = .script ∧ u.filePath.isSome = true

instance : DecidablePred IsPatched := fun _ =>
  inferInstanceAs (Decidable (_ ∧ _ ∧ _))

/-- A script that is patched is read from the file of the update. -/
theorem scriptFile?_of_isPatched {u : ReloadUpdate} (h : IsPatched u) :
    scriptFile? u = u.filePath :=
  if_pos ⟨h.1, h.2.1⟩

/-- Nothing is read for the other updates. -/
theorem scriptFile?_of_not_isPatched {u : ReloadUpdate} (h : ¬ IsPatched u) :
    scriptFile? u = none := by
  unfold scriptFile?
  split
  · rename_i hscript
    cases hfile : u.filePath with
    | none => rfl
    | some path => exact absurd ⟨hscript.1, hscript.2, by rw [hfile]; rfl⟩ h
  · rfl

/-- The patch is made from the text that `read` gives for the file of the update, under the
    identifier of the update. -/
def IsPatchOf (t : Transpiler) (read : Path → Except StorageError String) (u : ReloadUpdate)
    (patch : PatchRecord) : Prop :=
  ∃ path text, u.filePath = some path ∧ read path = .ok text ∧
    t.patch? { sourceText := text, symbolId := u.symbolId } = some patch

end Reload

/-- The updates that get a patch. -/
def ReloadPlan.patched (plan : ReloadPlan) : List ReloadUpdate :=
  plan.updates.filter Reload.IsPatched

namespace Engine

variable {e : Engine} {read : Path → Except StorageError String}

/-- A patch is made as the transpiler answers. -/
theorem scriptPatch_eq_ok_iff {source : ScriptSource} {patch : PatchRecord} :
    (e.scriptPatch source).result = .ok patch ↔ e.transpiler.patch? source = some patch := by
  simp only [scriptPatch, Inquiry.result_bind, Inquiry.result_askSupported, Transpiler.patch?]
  -- One case for each kind of answer.
  cases e.transpiler.transpile source with
  | ok patch' =>
    show Except.ok patch' = Except.ok patch ↔ _
    simp
  | error err =>
    cases err with
    | unsupported c =>
      show Except.ok (PatchRecord.minimal source.symbolId source.sourceText) = Except.ok patch ↔ _
      simp
    | failed c reason =>
      show Except.error _ = Except.ok patch ↔ _
      simp

/-- The scripts are patched one by one. -/
theorem patches_eq_ok_iff {us : List ReloadUpdate} {made : List PatchRecord} :
    (e.patches read us).result = .ok made ↔
      List.Forall₂ (Reload.IsPatchOf e.transpiler read) (us.filter Reload.IsPatched) made := by
  induction us generalizing made with
  | nil =>
    rw [patches, Inquiry.result_pure, List.filter_nil, List.forall₂_nil_left_iff]
    exact ⟨fun h => (Except.ok.inj h).symm, fun h => by rw [h]⟩
  | cons u us ih =>
    rw [patches]
    by_cases h : Reload.IsPatched u
    · obtain ⟨path, hpath⟩ := Option.isSome_iff_exists.mp h.2.2
      rw [Reload.scriptFile?_of_isPatched h, hpath, List.filter_cons_of_pos (by simpa using h),
        List.forall₂_cons_left_iff]
      simp only [Inquiry.result_bind, Inquiry.result_ofExcept, Inquiry.result_pure,
        Except.bind_eq_ok, Except.mapError_eq_ok, scriptPatch_eq_ok_iff, ih]
      -- Reading the file, patching the script and the patches of the others all have to succeed.
      constructor
      · intro ⟨text, hread, patch, hpatch, rest, hrest, heq⟩
        exact ⟨patch, rest, ⟨path, text, hpath, hread, hpatch⟩, hrest, (Except.ok.inj heq).symm⟩
      · intro ⟨patch, rest, ⟨path', text, hpath', hread, hpatch⟩, hrest, heq⟩
        cases hpath.symm.trans hpath'
        exact ⟨text, hread, patch, hpatch, rest, hrest, congrArg Except.ok heq.symm⟩
    · rw [Reload.scriptFile?_of_not_isPatched h, List.filter_cons_of_neg (by simpa using h)]
      exact ih

/-- The patches of a reload belong to its updates. -/
theorem prepareReload_patches {edit : WorkspaceEdit} {renames : List RenameRequest}
    {plan : ReloadPlan} (h : (e.prepareReload edit renames read).result = .ok plan) :
    List.Forall₂ (Reload.IsPatchOf e.transpiler read) plan.patched plan.patches := by
  simp only [prepareReload, Inquiry.result_bind, Except.bind_eq_ok] at h
  obtain ⟨cascade, -, fileOf, -, made, hmade, hplan⟩ := h
  cases hplan
  exact patches_eq_ok_iff.mp hmade

end Engine

/-! ## What is read after an edit -/

namespace Apply

open PlacedStore

variable {σ κ ν : Type} [Store σ] [DecidableEq κ] [PlacedStore σ κ ν] {edit : WorkspaceEdit}
  {s s' : σ} {result : ApplyResult}

/-- Where an edit has written, the text that was written last is read. -/
theorem read_run (h : run edit false s = (.ok result, s')) {p : Path} {text : String}
    (hread : Store.read s' p = .ok text) {file : Path × String} (hfile : file ∈ result.files)
    (hplace : place? s file.1 = place? s p) :
    ∃ last, (result.files.filter fun f => place? s f.1 = place? s p).getLast? = some last ∧
      text = last.2 := by
  obtain ⟨hcompute, hwrite⟩ := run_eq_ok h
  have hpresent := present_of_spliced (compute_ok hcompute).2
  have hmoved := (run_overwritten edit s).place p
  rw [h] at hmoved
  obtain ⟨k, stored, hk, hlook, hbytes⟩ := read_ok hread
  rw [show place? s' p = place? s p from hmoved] at hk
  have hwritten := writeAll_ok hpresent hwrite k
  rw [hk] at hplace ⊢
  split at hwritten
  -- Something was written to the place, so one of the writes was the last.
  · rename_i hnone
    have hmem : file ∈ result.files.filter fun f => place? s f.1 = some k :=
      List.mem_filter.mpr ⟨hfile, decide_eq_true hplace⟩
    rw [List.getLast?_eq_none_iff.mp hnone] at hmem
    cases hmem
  · rename_i last hlast
    refine ⟨last, hlast, ?_⟩
    cases hlook.symm.trans hwritten
    rw [bytes_ofText] at hbytes
    exact (Text.bytes_injective hbytes).symm

omit [DecidableEq κ] [PlacedStore σ κ ν] in
/-- The written files are told apart by their paths. -/
theorem eq_of_same_of_run (h : run edit false s = (.ok result, s')) {file other : Path × String}
    (hfile : file ∈ result.files) (hother : other ∈ result.files)
    (hsame : file.1.same other.1 = true) : file = other := by
  have hasc := edit.groupKeys_pairwise
  rw [← (compute_ok (run_eq_ok h).1).1] at hasc
  exact Path.eq_of_same hasc hfile hother hsame

end Apply

namespace Engine

/-! ## The patches after a rename -/

/-- What a rename reports about its files and about the reload. -/
theorem finish_eq_ok {e : Engine} {r : RenameRequest} {plan : RenamePlan}
    {validation : ValidationReport} {applied : ApplyResult}
    {read : Path → Except StorageError String} {outcome : RenameOutcome}
    (h : (e.finish r plan validation applied read).result = .ok outcome) :
    outcome.applied = applied ∧ ∃ reload, outcome.hotReload = some reload ∧
      (e.prepareReload plan.edit [r] read).result = .ok reload := by
  simp only [finish, Inquiry.result_bind, Inquiry.result_pure, Except.bind_eq_ok] at h
  obtain ⟨integrity, -, reload, hreload, houtcome⟩ := h
  cases houtcome
  exact ⟨rfl, reload, rfl, hreload⟩

open PlacedStore in
/-- A script whose path names the place of a written file is patched from the text that was written
    there last. -/
theorem execute_patches {σ κ ν : Type} [Store σ] [DecidableEq κ] [PlacedStore σ κ ν] {e : Engine}
    {r : RenameRequest} {s s' : σ} {outcome : RenameOutcome}
    (h : (e.execute r false s).answer = (.ok outcome, s')) :
    ∃ edit plan, Apply.run edit false s = (.ok outcome.applied, s') ∧
      outcome.hotReload = some plan ∧
      List.Forall₂ (Reload.IsPatchOf e.transpiler (Store.read s')) plan.patched plan.patches ∧
      ∀ u ∈ plan.patched, ∀ path, u.filePath = some path → ∀ file ∈ outcome.applied.files,
        place? s file.1 = place? s path →
        ∃ last, (outcome.applied.files.filter fun f =>
            place? s f.1 = place? s path).getLast? = some last ∧
          Store.read s' path = .ok last.2 := by
  obtain ⟨plan, validation, applied, -, hrun, hfinish⟩ := execute_eq_ok.mp h
  obtain ⟨rfl, reload, hreload, hprepare⟩ := finish_eq_ok hfinish
  have hpatches := prepareReload_patches hprepare
  refine ⟨plan.edit, reload, hrun, hreload, hpatches, ?_⟩
  intro u hu path hpath file hfile hplace
  -- The update has a patch, so its file was read.
  obtain ⟨patch, -, path', text, hpath', hread, -⟩ := exists_of_forall₂ hpatches hu
  cases hpath.symm.trans hpath'
  obtain ⟨last, hlast, rfl⟩ := Apply.read_run hrun hread hfile hplace
  exact ⟨last, hlast, hread⟩

/-- The patches of a reload are those of the updates that recompile scripts whose files are known,
    in their order, and each is made from the text of the file at that time. After a rename this is
    the text that was written for the file, in memory. On disk it is the text that was written last
    to the location of the file, which is the one for the file if no other written path leads
    there. -/
theorem patches_exact (e : Engine) :
    (∀ edit renames read plan, (e.prepareReload edit renames read).result = .ok plan →
      List.Forall₂ (Reload.IsPatchOf e.transpiler read) plan.patched plan.patches) ∧
    (∀ r (s s' : MemoryStore) outcome, (e.execute r false s).answer = (.ok outcome, s') →
      ∃ plan, outcome.hotReload = some plan ∧
        List.Forall₂ (Reload.IsPatchOf e.transpiler (Store.read s')) plan.patched plan.patches ∧
        ∀ u ∈ plan.patched, ∀ path, u.filePath = some path → ∀ file ∈ outcome.applied.files,
          path.same file.1 = true → Store.read s' path = .ok file.2) ∧
    (∀ r (d d' : Disk) outcome, (e.execute r false d).answer = (.ok outcome, d') →
      ∃ plan, outcome.hotReload = some plan ∧
        List.Forall₂ (Reload.IsPatchOf e.transpiler (Store.read d')) plan.patched plan.patches ∧
        ∀ u ∈ plan.patched, ∀ path, u.filePath = some path → ∀ file ∈ outcome.applied.files,
          path.same file.1 = true →
          ∃ last, (outcome.applied.files.filter fun f =>
              d.location? f.1 = d.location? path).getLast? = some last ∧
            Store.read d' path = .ok last.2 ∧
            ((∀ other ∈ outcome.applied.files, d.location? other.1 = d.location? path →
              path.same other.1 = true) → last = file)) := by
  refine ⟨fun _ _ _ _ => prepareReload_patches, ?_, ?_⟩
  · intro r s s' outcome h
    obtain ⟨edit, plan, hrun, hreload, hpatches, hwritten⟩ := execute_patches h
    refine ⟨plan, hreload, hpatches, fun u hu path hpath file hfile hsame => ?_⟩
    have hplace : some file.1.components = some path.components :=
      congrArg some (Path.same_eq_true.mp hsame).symm
    obtain ⟨last, hlast, hread⟩ := hwritten u hu path hpath file hfile hplace
    obtain ⟨hmem, hat⟩ := List.mem_filter.mp (List.mem_of_getLast? hlast)
    -- In memory the places are the paths, so nothing else was written there.
    have hlastSame : last.1.same file.1 = true :=
      Path.same_eq_true.mpr (Option.some.inj ((of_decide_eq_true hat).trans hplace.symm))
    rw [hread, Apply.eq_of_same_of_run hrun hmem hfile hlastSame]
  · intro r d d' outcome h
    obtain ⟨edit, plan, hrun, hreload, hpatches, hwritten⟩ := execute_patches h
    refine ⟨plan, hreload, hpatches, fun u hu path hpath file hfile hsame => ?_⟩
    have hlocation : d.location? file.1 = d.location? path := (Disk.location?_congr hsame).symm
    obtain ⟨last, hlast, hread⟩ := hwritten u hu path hpath file hfile hlocation
    refine ⟨last, hlast, hread, fun honly => ?_⟩
    obtain ⟨hmem, hat⟩ := List.mem_filter.mp (List.mem_of_getLast? hlast)
    -- The last written path is the path of the script, as no other leads there.
    have hlastSame := honly last hmem (of_decide_eq_true hat)
    rw [Path.same_congr hsame, Path.same_comm] at hlastSame
    exact Apply.eq_of_same_of_run hrun hmem hfile hlastSame

/-! ## A script with two paths -/

/-- A script and a call of it, under two paths. -/
def callOccurrences : List Occurrence :=
  [⟨⟨"./a.gml"⟩, 5, 6, none, .reference⟩, ⟨⟨"a.gml"⟩, 0, 1, none, .definition⟩]

/-- The engine that knows the script, and reports it for one of the paths. -/
def calling : Engine :=
  { analyzer := AnalyzerTables.analyzer {
      occurrences := some [(Cascade.script "s", callOccurrences)]
      fileSymbols := some [(⟨"./a.gml"⟩, [Cascade.script "t"])] } }

/-- The rename of the script. -/
def callRename : RenameRequest :=
  ⟨Cascade.script "s", "t"⟩

/-- The plan for the script. -/
def callPlan : RenamePlan where
  symbolId := Cascade.script "s"
  oldName := "s"
  newName := "t"
  edit := renameEdit "t" callOccurrences
  notices := []

/-- What validation says about the plan. -/
def callValidation : ValidationReport where
  files := 2
  edits := 2
  warnings := []

/-- The texts for the two paths, where both are read as `s(); s();`. -/
def callApplied : ApplyResult where
  files := [(⟨"./a.gml"⟩, "s(); t();"), (⟨"a.gml"⟩, "t(); s();")]
  written := true

/-- The update of the script, whose file is the one that reports it under its new identifier. -/
def callUpdate : ReloadUpdate where
  symbolId := Cascade.script "t"
  previousId := some (Cascade.script "s")
  action := .recompile
  filePath := some ⟨"./a.gml"⟩
  affectedRanges := [⟨5, 6⟩]

/-- The cascade of the script. -/
def callCascade : Cascade where
  entries := [⟨Cascade.script "s", 0, "changed directly", none⟩]
  order := [Cascade.script "s"]
  circular := []
  totalSymbols := 1
  maxDistance := 0
  hasCircular := false

/-- The reload of the script, where its file is read as the text. -/
def callReload (text : String) : ReloadPlan where
  updates := [callUpdate]
  patches := [.minimal (Cascade.script "t") text]
  cascade := callCascade

/-- The edits of the plan are valid. -/
theorem validate_callPlan : callPlan.edit.validate = .ok () := by
  rw [WorkspaceEdit.validate, show callPlan.edit.groups = _ from
    Apply.groups_of_twoPaths rfl rfl]
  rfl

/-- The rename is planned. -/
theorem prepared_calling : calling.prepared callRename = .ok (callPlan, callValidation) := by
  have hplan : (calling.plan callRename).result = .ok callPlan := by
    rw [← Except.toOption_eq_some]
    decide +kernel
  have hvalidate : (calling.validate callPlan.edit).result = .ok callValidation := by
    have hcounts : callPlan.edit.counts = [(⟨"./a.gml"⟩, 1), (⟨"a.gml"⟩, 1)] := by
      rw [WorkspaceEdit.counts, show callPlan.edit.groupKeys = _ from
        Apply.groupKeys_of_twoPaths rfl rfl]
      decide
    rw [← Except.toOption_eq_some, validate, validate_callPlan, hcounts]
    decide +kernel
  exact Except.bind_eq_ok.mpr ⟨_, hplan, Except.bind_eq_ok.mpr ⟨_, hvalidate, rfl⟩⟩

/-- The script is to be patched. -/
theorem patched_callReload (text : String) : (callReload text).patched = [callUpdate] := by
  show [callUpdate].filter Reload.IsPatched = _
  decide +kernel

section Reading

variable {read : Path → Except StorageError String} {text : String}

/-- The reload carries the text that is read under the path of the update. -/
theorem prepareReload_calling (hread : read ⟨"./a.gml"⟩ = .ok text) :
    (calling.prepareReload callPlan.edit [callRename] read).result = .ok (callReload text) := by
  have hcascade : (calling.cascade [callRename.symbolId]).result = .ok callCascade := by
    rw [cascade_leaf rfl]
    cbv
  have hfiles : callPlan.edit.files = [⟨"./a.gml"⟩, ⟨"a.gml"⟩] := by
    have hlast : Path.lastSpellings (callPlan.edit.edits.map TextEdit.path) =
        [⟨"./a.gml"⟩, ⟨"a.gml"⟩] := by
      decide
    rw [WorkspaceEdit.files, Path.set, hlast, Path.sort, List.mergeSort_of_pairwise]
    decide
  -- The analyzer reports the new identifier for one of the two paths.
  have hfileOf : (calling.fileSymbols [⟨"./a.gml"⟩, ⟨"a.gml"⟩] []).result =
      .ok [(Cascade.script "t", ⟨"./a.gml"⟩)] :=
    Except.toOption_eq_some.mp (by decide +kernel)
  have hupdates : Reload.updates callPlan.edit [callRename] callCascade
      [(Cascade.script "t", ⟨"./a.gml"⟩)] = [callUpdate] := by
    decide +kernel
  have hpatches : (calling.patches read [callUpdate]).result = .ok (callReload text).patches := by
    rw [patches_eq_ok_iff, show [callUpdate].filter Reload.IsPatched = _ from
      patched_callReload text]
    exact .cons ⟨_, text, rfl, hread, rfl⟩ .nil
  simp only [prepareReload, Inquiry.result_bind, List.map_cons, List.map_nil, hcascade, hfiles,
    Except.ok_bind, hfileOf, hupdates, hpatches]
  rfl

/-- The report about the files, whatever is read there. -/
theorem verify_calling (read : Path → Except StorageError String) (edited : List Path) : ∃ report,
    (calling.verify callRename.symbolId callRename.newName edited read).result = .ok report := by
  have hnone : calling.analyzer.occurrences (Cascade.script "t") = .ok [] := by decide
  have hstrays : ∃ warnings,
      (calling.strayWarnings (Cascade.script "t") (Path.set edited)).result = .ok warnings := by
    refine exists_strayWarnings_iff.mpr fun _ capability reason hfailed => ?_
    rw [hnone] at hfailed
    cases hfailed
  obtain ⟨warnings, hwarnings⟩ := hstrays
  exact ⟨_, verify_eq_ok_iff.mpr ⟨rfl, rfl, warnings, hwarnings, rfl⟩⟩

/-- The script is renamed in a store where both paths are read as `s(); s();`. -/
theorem execute_calling {σ : Type} [Store σ] {s s' : σ}
    (hrun : Apply.run callPlan.edit false s = (.ok callApplied, s'))
    (hread : Store.read s' ⟨"./a.gml"⟩ = .ok text) :
    ∃ outcome, (calling.execute callRename false s).answer = (.ok outcome, s') ∧
      outcome.applied = callApplied ∧ outcome.hotReload = some (callReload text) := by
  obtain ⟨report, hverify⟩ := verify_calling (Store.read s') callApplied.paths
  refine ⟨⟨callPlan, callValidation, callApplied, some report, some (callReload text)⟩,
    execute_eq_ok.mpr ⟨_, _, _, prepared_calling, hrun, ?_⟩, rfl, rfl⟩
  simp only [finish, Inquiry.result_bind, hverify, prepareReload_calling hread, Except.ok_bind]
  rfl

end Reading

/-- A store in memory, where the paths are those of two files. -/
def callStore (first second : String) (writes : Nat) : MemoryStore where
  files := [(⟨"./a.gml"⟩, first), (⟨"a.gml"⟩, second)]
  failing := []
  writes := writes

/-- The text for the first path has the call renamed. -/
theorem splice_first : Splice.apply ⟨"./a.gml"⟩ "s(); s();" [⟨⟨"./a.gml"⟩, 5, 6, "t"⟩] =
    .ok "s(); t();" :=
  Except.toOption_eq_some.mp (by decide +kernel)

/-- The text for the second path has the script renamed. -/
theorem splice_second : Splice.apply ⟨"a.gml"⟩ "s(); s();" [⟨⟨"a.gml"⟩, 0, 1, "t"⟩] =
    .ok "t(); s();" :=
  Except.toOption_eq_some.mp (by decide +kernel)

/-- In memory each of the files has its own edit carried out. -/
theorem run_callStore :
    Apply.run callPlan.edit false (callStore "s(); s();" "s(); s();" 0) =
      (.ok callApplied, callStore "s(); t();" "t(); s();" 2) :=
  Apply.run_of_twoPaths rfl rfl validate_callPlan rfl rfl splice_first splice_second rfl rfl

/-- On disk the paths are those of one file, which holds the text for the second. -/
theorem run_callDisk : Apply.run callPlan.edit false (Apply.oneFile "s(); s();") =
    (.ok callApplied, Apply.oneFile "t(); s();") :=
  Apply.run_oneFile rfl rfl validate_callPlan splice_first splice_second

/-- So it is read under the first path, too. -/
theorem read_callDisk :
    Store.read (Apply.oneFile "t(); s();") ⟨"./a.gml"⟩ = .ok "t(); s();" :=
  Apply.read_oneFile "t(); s();" (by decide)

/-- The reload of the script, its rename in memory and its rename on disk. -/
theorem patches_exact_calling :
    (∃ plan, (calling.prepareReload callPlan.edit [callRename]
        (Store.read (Apply.oneFile "t(); s();"))).result = .ok plan ∧
      List.Forall₂ (Reload.IsPatchOf calling.transpiler (Store.read (Apply.oneFile "t(); s();")))
        plan.patched plan.patches) ∧
    (∃ outcome plan, (calling.execute callRename false
        (callStore "s(); s();" "s(); s();" 0)).answer =
          (.ok outcome, callStore "s(); t();" "t(); s();" 2) ∧
      outcome.hotReload = some plan ∧ callUpdate ∈ plan.patched ∧
      (⟨"./a.gml"⟩, "s(); t();") ∈ outcome.applied.files ∧
      Store.read (callStore "s(); t();" "t(); s();" 2) ⟨"./a.gml"⟩ = .ok "s(); t();") ∧
    (∃ outcome plan, (calling.execute callRename false (Apply.oneFile "s(); s();")).answer =
        (.ok outcome, Apply.oneFile "t(); s();") ∧
      outcome.hotReload = some plan ∧ callUpdate ∈ plan.patched ∧
      (⟨"./a.gml"⟩, "s(); t();") ∈ outcome.applied.files ∧
      ∃ last, (outcome.applied.files.filter fun f => (Apply.oneFile "s(); s();").location? f.1 =
          (Apply.oneFile "s(); s();").location? ⟨"./a.gml"⟩).getLast? = some last ∧
        Store.read (Apply.oneFile "t(); s();") ⟨"./a.gml"⟩ = .ok last.2) := by
  obtain ⟨hreload, hmemory, hdisk⟩ := patches_exact calling
  -- In all three the update of the script is the one that is patched.
  have hpatched : ∀ text, callUpdate ∈ (callReload text).patched := by
    intro text
    rw [patched_callReload]
    exact List.mem_cons_self
  have hfile : ∀ outcome : RenameOutcome, outcome.applied = callApplied →
      (⟨"./a.gml"⟩, "s(); t();") ∈ outcome.applied.files := by
    intro outcome happlied
    rw [happlied]
    exact List.mem_cons_self
  have hprepare := prepareReload_calling read_callDisk
  refine ⟨⟨_, hprepare, hreload _ _ _ _ hprepare⟩, ?_, ?_⟩
  · obtain ⟨outcome, hexecute, happlied, hplan⟩ := execute_calling run_callStore rfl
    have hfile := hfile outcome happlied
    obtain ⟨plan, hplan', -, hread⟩ := hmemory _ _ _ outcome hexecute
    cases hplan.symm.trans hplan'
    exact ⟨outcome, _, hexecute, hplan, hpatched _, hfile,
      hread _ (hpatched _) _ rfl _ hfile (Path.same_self _)⟩
  · obtain ⟨outcome, hexecute, happlied, hplan⟩ := execute_calling run_callDisk read_callDisk
    have hfile := hfile outcome happlied
    obtain ⟨plan, hplan', -, hread⟩ := hdisk _ _ _ outcome hexecute
    cases hplan.symm.trans hplan'
    obtain ⟨last, hlast, hlastRead, -⟩ :=
      hread _ (hpatched _) _ rfl _ hfile (Path.same_self _)
    exact ⟨outcome, _, hexecute, hplan, hpatched _, hfile, last, hlast, hlastRead⟩

/-- A patch need not be made from the text that the rename reports for the file of the script. -/
theorem patch_of_another_text :
    ∃ (e : Engine) (r : RenameRequest) (d d' : Disk) (outcome : RenameOutcome) (plan : ReloadPlan)
      (u : ReloadUpdate) (patch : PatchRecord) (file : Path × String),
      (e.execute r false d).answer = (.ok outcome, d') ∧ e.transpiler = .unavailable ∧
      outcome.hotReload = some plan ∧ plan.patched = [u] ∧ plan.patches = [patch] ∧
      file ∈ outcome.applied.files ∧ u.filePath = some file.1 ∧ patch.sourceText ≠ file.2 := by
  obtain ⟨outcome, hexecute, happlied, hreload⟩ := execute_calling run_callDisk read_callDisk
  refine ⟨calling, _, _, _, outcome, _, callUpdate, _, (⟨"./a.gml"⟩, "s(); t();"), hexecute, rfl,
    hreload, patched_callReload _, rfl, ?_, rfl, ?_⟩
  · rw [happlied]
    exact List.mem_cons_self
  -- The patch has what is on disk, and the report what was written first.
  · show "t(); s();" ≠ "s(); t();"
    decide

end Engine
end HotRename
