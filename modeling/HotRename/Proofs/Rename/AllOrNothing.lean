import HotRename.Proofs.Rename.Apply

/-!
# Applying an edit is all or nothing

An edit is applied to a store in memory in one of four ways. It is refused, or a file cannot be
read: then nothing is written. A write fails: then exactly the files in front of it have been
written, each with all of its edits. Or all files are written. In a dry run the store stays as it
is.
-/

namespace HotRename.Apply

/-- The edited files that come before a path: in ascending order, each spelled as in one of the
    edits. -/
structure FilesBefore (edit : WorkspaceEdit) (path : Path) (files : List Path) : Prop where
  ascending : files.Pairwise fun p q => p.cmp q = .lt
  spelled : ∀ p ∈ files, ∃ e ∈ edit.edits, e.path = p
  any_same_iff : ∀ p, files.any p.same = true ↔ edit.touches p = true ∧ p.cmp path = .lt

/-- The keys in front of a key are the edited files that come before it. -/
theorem filesBefore_of_groupKeys {edit : WorkspaceEdit} {before : List Path} {path : Path}
    (after : List Path) (hkeys : edit.groupKeys = before ++ path :: after) :
    FilesBefore edit path before := by
  have hasc := edit.groupKeys_pairwise
  rw [hkeys] at hasc
  -- The keys ascend, so the key comes after those in front of it.
  obtain ⟨hbefore, hafter, hcross⟩ := List.pairwise_append.mp hasc
  refine ⟨hbefore, ?_, ?_⟩
  · intro p hp
    exact WorkspaceEdit.exists_path_eq_of_mem_groupKeys (by rw [hkeys]; simp [hp])
  · intro p
    rw [edit.touches_eq_any_groupKeys, hkeys, List.any_append, List.any_cons, Bool.or_eq_true,
      Bool.or_eq_true]
    constructor
    · intro hp
      obtain ⟨q, hq, hsame⟩ := List.any_eq_true.mp hp
      refine ⟨.inl hp, ?_⟩
      rw [Path.cmp_congr_left hsame]
      exact hcross q hq path List.mem_cons_self
    · -- The path itself and the files behind it do not come before it.
      rintro ⟨hp | hp | hp, hlt⟩
      · exact hp
      · rw [Path.not_same_of_lt hlt] at hp
        exact absurd hp (by decide)
      · obtain ⟨q, hq, hsame⟩ := List.any_eq_true.mp hp
        have hgt : path.cmp q = .lt := (List.pairwise_cons.mp hafter).1 q hq
        rw [Path.cmp_congr_left hsame, Path.cmp_swap, hgt] at hlt
        exact absurd hlt (by decide)

/-- After all files were written, each of them holds the text that was written there. -/
theorem content?_writeAll_eq_find? {written : List Path} {files : List (Path × String)}
    {s s' : MemoryStore} (hasc : (files.map Prod.fst).Pairwise fun p q => p.cmp q = .lt)
    (hpresent : ∀ file ∈ files, PlacedStore.Present s file.1)
    (h : writeAll written files s = (.ok (), s')) {f : Path}
    (hf : (files.map Prod.fst).any f.same = true) : s'.content? f = Path.find? f files := by
  have hlook := writeAll_ok hpresent h f.components
  obtain ⟨file, hfile⟩ : ∃ file, files.find? (fun file => f.same file.1) = some file := by
    rw [← Option.isSome_iff_exists, List.isSome_find?, ← hf, List.any_map]
    rfl
  have hsame : f.same file.1 = true := by simpa using List.find?_some hfile
  rw [Path.find?, hfile, Option.map_some]
  split at hlook
  -- The file that was found is among those put into its place.
  · rename_i hnone
    have hmem : file ∈ files.filter fun file =>
        PlacedStore.place? s file.1 = some f.components :=
      List.mem_filter.mpr ⟨List.mem_of_find?_eq_some hfile,
        decide_eq_true (congrArg some (Path.same_eq_true.mp hsame).symm)⟩
    rw [List.getLast?_eq_none_iff.mp hnone] at hmem
    exact absurd hmem List.not_mem_nil
  · rename_i last hlast
    obtain ⟨hmem, hplace⟩ := List.mem_filter.mp (List.mem_of_getLast? hlast)
    have hlastSame : f.same last.1 = true :=
      Path.same_eq_true.mpr (Option.some.inj (of_decide_eq_true hplace)).symm
    -- The paths ascend, so the last file put there is the only one.
    have heq : last = file := by
      refine Path.eq_of_same hasc hmem (List.mem_of_find?_eq_some hfile) ?_
      rw [← Path.same_congr hlastSame]
      exact hsame
    rw [← heq]
    exact hlook

/-! ## The four ways -/

/-- Every edited file has all spans of its edits replaced, and every other file is as it was. -/
structure Carried (edit : WorkspaceEdit) (s s' : MemoryStore) : Prop where
  replaced : ∀ f, edit.touches f = true →
    s.ReplacedIn s' f (TextEdit.replacements (edit.editsFor f))
  kept : ∀ f, edit.touches f = false → s'.content? f = s.content? f

/-- An edited file could not be written. The edited files before it have all spans of their edits
    replaced, and every other file is as it was. -/
structure StoppedAt (edit : WorkspaceEdit) (s s' : MemoryStore) (path : Path)
    (written : List Path) : Prop where
  touches : edit.touches path = true
  before : FilesBefore edit path written
  replaced : ∀ f, written.any f.same = true →
    s.ReplacedIn s' f (TextEdit.replacements (edit.editsFor f))
  kept : ∀ f, written.any f.same = false → s'.content? f = s.content? f

/-- A dry run leaves the store as it is. -/
theorem run_dry (edit : WorkspaceEdit) (s : MemoryStore) : (run edit true s).2 = s := by
  unfold run
  cases compute edit s <;> rfl

/-- An edit that is carried out changes the edited files, and reports what they hold. -/
theorem run_ok {edit : WorkspaceEdit} {s s' : MemoryStore} {result : ApplyResult}
    (h : run edit false s = (.ok result, s')) :
    Carried edit s s' ∧
      ∀ f, edit.touches f = true → s'.content? f = Path.find? f result.files := by
  obtain ⟨hcompute, hwrite⟩ := run_eq_ok h
  obtain ⟨hkeys, hspliced⟩ := compute_ok hcompute
  have htouches : ∀ f, edit.touches f = (result.files.map Prod.fst).any f.same := by
    intro f
    rw [hkeys, edit.touches_eq_any_groupKeys]
  have hasc : (result.files.map Prod.fst).Pairwise fun p q => p.cmp q = .lt := by
    rw [hkeys]
    exact edit.groupKeys_pairwise
  -- Every edited file was read, and so is there to be written.
  have hpresent : ∀ file ∈ result.files, PlacedStore.Present s file.1 := by
    intro file hfile
    obtain ⟨old, hread, -⟩ := hspliced file hfile
    exact PlacedStore.present_of_read hread
  refine ⟨⟨fun f hf => ?_, fun f hf => ?_⟩, fun f hf => ?_⟩
  · exact content?_writeAll_mem hspliced hwrite (by rwa [← htouches])
  · exact content?_writeAll_not_mem hspliced hwrite (by rwa [← htouches])
  · exact content?_writeAll_eq_find? hasc hpresent hwrite (by rwa [← htouches])

/-- An edit that is not carried out was refused, or an edited file could not be read, or one could
    not be written. Only in the last case is the store not as it was. -/
theorem run_error {edit : WorkspaceEdit} {dryRun : Bool} {s s' : MemoryStore} {err : RenameError}
    (h : run edit dryRun s = (.error err, s')) :
    (∃ bad, err = .edit bad ∧ s' = s) ∨
    (∃ path source, err = .application path [] source ∧ s.read path = .error source ∧ s' = s) ∨
    (∃ path written source, err = .application path written source ∧ dryRun = false ∧
      (∀ text, s.write path text = .error source) ∧ StoppedAt edit s s' path written) := by
  unfold run at h
  split at h
  · rename_i err' hcompute
    cases h
    rcases compute_error hcompute with ⟨bad, rfl⟩ | ⟨path, -, source, rfl, hread⟩
    · exact .inl ⟨bad, rfl, rfl⟩
    · exact .inr (.inl ⟨path, source, rfl, hread, rfl⟩)
  · rename_i files hcompute
    cases dryRun with
    | true => exact nomatch h
    | false =>
      rw [if_neg (by decide)] at h
      split at h
      · rename_i err' s₁ hwrite
        cases h
        -- The write stopped at one file, with the files in front of it written.
        obtain ⟨before, path, text, after, source, rfl, hbefore, rfl, hfail⟩ :=
          writeAll_error hwrite
        obtain ⟨hkeys, hspliced⟩ := compute_ok hcompute
        have hspliced' : ∀ file ∈ before, SplicedFrom (Store.read s) edit file :=
          fun file hfile => hspliced file (List.mem_append_left _ hfile)
        refine .inr (.inr ⟨path, _, source, rfl, rfl, ?_, ?_, ?_, ?_, ?_⟩)
        · exact MemoryStore.write_error (writeAll_failing hbefore) hfail
        · exact WorkspaceEdit.touches_of_mem_groupKeys (by rw [← hkeys]; simp)
        · exact filesBefore_of_groupKeys (after.map Prod.fst) (by rw [← hkeys]; simp)
        · exact fun f hf => content?_writeAll_mem hspliced' hbefore hf
        · exact fun f hf => content?_writeAll_not_mem hspliced' hbefore hf
      · exact nomatch h

/-- What is left of a store in memory when an edit is applied to it. Edits that are refused and
    files that cannot be read leave it as it is. A write that fails leaves the files in front of
    it written and all others as they were. Otherwise every edited file is written, unless the run
    is dry. -/
theorem run_all_or_nothing (edit : WorkspaceEdit) (dryRun : Bool) (s : MemoryStore) :
    match run edit dryRun s with
    | (.error (.edit _), s') => s' = s
    | (.error (.application path written source), s') =>
      (s.read path = .error source ∧ written = [] ∧ s' = s) ∨
      (dryRun = false ∧ (∀ text, s.write path text = .error source) ∧
        StoppedAt edit s s' path written)
    | (.error _, _) => False
    | (.ok result, s') =>
      if dryRun then s' = s
      else
        Carried edit s s' ∧
          ∀ f, edit.touches f = true → s'.content? f = Path.find? f result.files := by
  rcases hrun : run edit dryRun s with ⟨answer, s'⟩
  cases answer with
  | error err =>
    rcases run_error hrun with ⟨bad, rfl, hs⟩ | ⟨path, source, rfl, hread, hs⟩ |
      ⟨path, written, source, rfl, hdry, hwrite, hstopped⟩
    · exact hs
    · exact .inl ⟨hread, rfl, hs⟩
    · exact .inr ⟨hdry, hwrite, hstopped⟩
  | ok result =>
    cases dryRun with
    | true =>
      -- A dry run reports the same files and writes none.
      have hdry := run_dry edit s
      rw [hrun] at hdry
      exact hdry
    | false => exact run_ok hrun

/-- Two files with the given texts. -/
def twoFiles (first second : String) (failing : List Path) (writes : Nat) : MemoryStore where
  files := [(⟨"a.gml"⟩, first), (⟨"b.gml"⟩, second)]
  failing
  writes

/-- An edit of both files. -/
def twoFilesEdit : WorkspaceEdit :=
  ⟨[⟨⟨"a.gml"⟩, 0, 1, "life"⟩, ⟨⟨"b.gml"⟩, 0, 1, "life"⟩]⟩

/-- What the files are to hold does not depend on which writes fail. -/
theorem compute_twoFiles (failing : List Path) :
    compute twoFilesEdit (twoFiles "x();" "x;" failing 0) =
      .ok [(⟨"a.gml"⟩, "life();"), (⟨"b.gml"⟩, "life;")] := by
  have hkeys : twoFilesEdit.groupKeys = [⟨"a.gml"⟩, ⟨"b.gml"⟩] :=
    Path.keys_of_ascending (by decide +kernel)
  have hfirst : twoFilesEdit.editsFor ⟨"a.gml"⟩ = [⟨⟨"a.gml"⟩, 0, 1, "life"⟩] := by decide
  have hsecond : twoFilesEdit.editsFor ⟨"b.gml"⟩ = [⟨⟨"b.gml"⟩, 0, 1, "life"⟩] := by decide
  rw [compute, WorkspaceEdit.validate, WorkspaceEdit.groups, hkeys]
  simp only [List.map_cons, List.map_nil, hfirst, hsecond, spliceAll, Splice.apply,
    Splice.applyChars, TextEdit.sortTailFirst, List.mergeSort_singleton]
  rfl

/-- The write of the second file fails, or none does. -/
theorem run_all_or_nothing_two_files :
    run twoFilesEdit false (twoFiles "x();" "x;" [⟨"b.gml"⟩] 0) =
        (.error (.application ⟨"b.gml"⟩ [⟨"a.gml"⟩] (.io ⟨"b.gml"⟩ .diskFull)),
          twoFiles "life();" "x;" [⟨"b.gml"⟩] 1) ∧
      StoppedAt twoFilesEdit (twoFiles "x();" "x;" [⟨"b.gml"⟩] 0)
        (twoFiles "life();" "x;" [⟨"b.gml"⟩] 1) ⟨"b.gml"⟩ [⟨"a.gml"⟩] ∧
      run twoFilesEdit false (twoFiles "x();" "x;" [] 0) =
        (.ok { files := [(⟨"a.gml"⟩, "life();"), (⟨"b.gml"⟩, "life;")], written := true },
          twoFiles "life();" "life;" [] 2) ∧
      Carried twoFilesEdit (twoFiles "x();" "x;" [] 0) (twoFiles "life();" "life;" [] 2) := by
  have hfailing : run twoFilesEdit false (twoFiles "x();" "x;" [⟨"b.gml"⟩] 0) =
      (.error (.application ⟨"b.gml"⟩ [⟨"a.gml"⟩] (.io ⟨"b.gml"⟩ .diskFull)),
        twoFiles "life();" "x;" [⟨"b.gml"⟩] 1) := by
    rw [run, compute_twoFiles]
    rfl
  have hwritten : run twoFilesEdit false (twoFiles "x();" "x;" [] 0) =
      (.ok { files := [(⟨"a.gml"⟩, "life();"), (⟨"b.gml"⟩, "life;")], written := true },
        twoFiles "life();" "life;" [] 2) := by
    rw [run, compute_twoFiles]
    rfl
  have hstopped := run_all_or_nothing twoFilesEdit false (twoFiles "x();" "x;" [⟨"b.gml"⟩] 0)
  have hcarried := run_all_or_nothing twoFilesEdit false (twoFiles "x();" "x;" [] 0)
  rw [hfailing] at hstopped
  rw [hwritten] at hcarried
  -- The file that is named was there to be read, so the write is what failed.
  rcases hstopped with ⟨hread, -, -⟩ | ⟨-, -, hstopped⟩
  · exact absurd hread (by decide +kernel)
  · exact ⟨hfailing, hstopped, hwritten, hcarried.1⟩

end HotRename.Apply
