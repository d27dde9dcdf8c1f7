import HotRename.Proofs.List
import HotRename.Proofs.Path.Order
import HotRename.Proofs.Rename.Cascade
import HotRename.Rename.Reload

/-!
# Updates after renames

The updates of a reload come from two loops: one over the symbols of the cascade, which are known by
the identifiers they had, and one over the symbols that the edited files report, which may be known
by the identifiers they get. Together they cover every symbol once. Main statements:

* `lookup_foldl_add`, `keys_foldl_add`  the table of files keeps the first report of a symbol
* `mem_covered_iff`        what the first loop covers: the cascade, and the new identifiers
* `origins_updates`        the symbols of all updates, in their order
* `describes_updates`      what an update says of its symbol
* `prepareReload_updates`  every update of a reload
-/

namespace HotRename

/-- The identifier that the symbol of an update had before the renames. -/
def ReloadUpdate.origin (u : ReloadUpdate) : SymbolId :=
  u.previousId.getD u.symbolId

/-- The symbols that a file reports; there are none when the analyzer cannot tell. -/
def Analyzer.symbolsOf (a : Analyzer) (path : Path) : List SymbolId :=
  match a.fileSymbols path with
  | .ok symbols => symbols
  | .error _ => []

/-- What the files report, each symbol with the file that reports it. -/
def Analyzer.reports (a : Analyzer) (files : List Path) : List (SymbolId × Path) :=
  files.flatMap fun path => (a.symbolsOf path).map fun id => (id, path)

namespace Reload

/-! ## The table of files -/

namespace FileOf

/-- The table after one more report. A symbol that was reported before keeps its file. -/
def add (fileOf : FileOf) (report : SymbolId × Path) : FileOf :=
  if (fileOf.lookup report.1).isSome then fileOf else fileOf ++ [report]

/-- The symbols of a file are reported one by one. -/
theorem report_eq_foldl (fileOf : FileOf) (path : Path) (symbols : List SymbolId) :
    fileOf.report path symbols = (symbols.map fun id => (id, path)).foldl add fileOf := by
  rw [List.foldl_map]
  rfl

/-- A symbol has a file exactly if it stands in the table. -/
theorem isSome_lookup_iff {fileOf : FileOf} {id : SymbolId} :
    (fileOf.lookup id).isSome = true ↔ id ∈ fileOf.map Prod.fst := by
  rw [← not_iff_not, Bool.not_eq_true, Option.isSome_eq_false_iff, Option.isNone_iff_eq_none,
    List.lookup_eq_none_iff, List.mem_map]
  constructor
  · rintro h ⟨entry, hentry, rfl⟩
    simpa using h entry hentry
  · intro h entry hentry
    have hne : id ≠ entry.1 := fun hid => h ⟨entry, hentry, hid.symm⟩
    simp [hne]

/-- A symbol lies in the file that reported it first. -/
theorem lookup_foldl_add (reports : List (SymbolId × Path)) (fileOf : FileOf) (id : SymbolId) :
    (reports.foldl add fileOf).lookup id = (fileOf.lookup id).or (reports.lookup id) := by
  induction reports generalizing fileOf with
  | nil => simp
  | cons report reports ih =>
    obtain ⟨symbol, path⟩ := report
    rw [List.foldl_cons, ih, add]
    by_cases hknown : (fileOf.lookup symbol).isSome = true
    · -- The report changes nothing: its symbol has a file already.
      rw [if_pos hknown]
      by_cases hid : id = symbol
      · subst hid
        obtain ⟨first, hfirst⟩ := Option.isSome_iff_exists.mp hknown
        simp [hfirst]
      · simp [List.lookup_cons, beq_false_of_ne hid]
    · rw [if_neg hknown, List.lookup_append, Option.or_assoc]
      congr 1
      by_cases hid : id = symbol
      · simp [hid]
      · simp [List.lookup_cons, beq_false_of_ne hid]

/-- The table lists every symbol at its first report. -/
theorem keys_foldl_add (reports : List (SymbolId × Path)) {fileOf : FileOf}
    {seen : List SymbolId} (h : fileOf.map Prod.fst = seen.eraseDups) :
    (reports.foldl add fileOf).map Prod.fst = (seen ++ reports.map Prod.fst).eraseDups := by
  induction reports generalizing fileOf seen with
  | nil => simpa using h
  | cons report reports ih =>
    have hknown : (fileOf.lookup report.1).isSome = true ↔ report.1 ∈ seen := by
      rw [isSome_lookup_iff, h, List.mem_eraseDups]
    -- A symbol is added exactly if it is seen for the first time.
    have hadd : (fileOf.add report).map Prod.fst = (seen ++ [report.1]).eraseDups := by
      rw [List.eraseDups_append, add]
      by_cases hseen : report.1 ∈ seen
      · rw [if_pos (hknown.mpr hseen), h]
        simp [List.removeAll, hseen]
      · rw [if_neg (hknown.not.mpr hseen)]
        simp [List.removeAll, hseen, h, List.eraseDups_cons]
    rw [List.foldl_cons, ih hadd, List.append_assoc]
    rfl

/-- The table of the given reports. -/
def ofReports (reports : List (SymbolId × Path)) : FileOf :=
  reports.foldl add []

/-- The table has the first report of each symbol. -/
theorem lookup_ofReports (reports : List (SymbolId × Path)) (id : SymbolId) :
    (ofReports reports).lookup id = reports.lookup id := by
  rw [ofReports, lookup_foldl_add, List.lookup_nil, Option.none_or]

/-- It has each reported symbol once, in the order of the reports. -/
theorem keys_ofReports (reports : List (SymbolId × Path)) :
    (ofReports reports).map Prod.fst = (reports.map Prod.fst).eraseDups := by
  have hnil : ([] : FileOf).map Prod.fst = ([] : List SymbolId).eraseDups := rfl
  rw [ofReports, keys_foldl_add reports hnil, List.nil_append]

/-- What stands in the table is a first report. -/
theorem lookup_of_mem_ofReports {reports : List (SymbolId × Path)} {id : SymbolId} {path : Path}
    (h : (id, path) ∈ ofReports reports) : reports.lookup id = some path := by
  rw [← lookup_ofReports]
  exact lookup_of_mem (keys_ofReports reports ▸ nodup_eraseDups _) h

end FileOf

/-! ## The identifiers that symbols get -/

section Renames

variable {edit : WorkspaceEdit} {renames : List RenameRequest} {cascade : Cascade}
  {fileOf : FileOf} {reports : List (SymbolId × Path)} {id new : SymbolId} {path : Path}

/-- The identifier that a symbol gets is given by a rename. -/
theorem exists_of_target?_eq_some (h : target? renames id = some new) :
    ∃ r ∈ renames, r.symbolId = id ∧ r.targetId = new := by
  obtain ⟨r, hfound, rfl⟩ := Option.map_eq_some_iff.mp h
  have hsource : r.symbolId = id := by simpa using List.find?_some hfound
  exact ⟨r, List.mem_reverse.mp (List.mem_of_find?_eq_some hfound), hsource, rfl⟩

/-- A symbol gets none exactly if no rename is of it. -/
theorem target?_eq_none_iff : target? renames id = none ↔ ∀ r ∈ renames, r.symbolId ≠ id := by
  simp [target?]

/-- A symbol that is renamed once gets the identifier of that rename. -/
theorem target?_of_mem (hsources : (renames.map RenameRequest.symbolId).Nodup)
    {r : RenameRequest} (hr : r ∈ renames) : target? renames r.symbolId = some r.targetId := by
  cases h : target? renames r.symbolId with
  | none => exact absurd rfl (target?_eq_none_iff.mp h r hr)
  | some new =>
    obtain ⟨r', hr', hsource, rfl⟩ := exists_of_target?_eq_some h
    rw [List.inj_on_of_nodup_map hsources hr' hr hsource]

/-- Where every renamed symbol is in the cascade, the first loop covers the symbols of the cascade
    and all identifiers that symbols get. -/
theorem mem_covered_iff (hsources : (renames.map RenameRequest.symbolId).Nodup)
    {order : List SymbolId} (horder : ∀ r ∈ renames, r.symbolId ∈ order) :
    id ∈ order ++ order.filterMap (target? renames) ↔
      id ∈ order ∨ id ∈ renames.map RenameRequest.targetId := by
  rw [List.mem_append, List.mem_filterMap, List.mem_map]
  refine or_congr_right ⟨?_, ?_⟩
  · intro ⟨source, _, htarget⟩
    obtain ⟨r, hr, _, rfl⟩ := exists_of_target?_eq_some htarget
    exact ⟨r, hr, rfl⟩
  -- The rename is of a symbol of the cascade, and the only one of it.
  · intro ⟨r, hr, htarget⟩
    exact ⟨r.symbolId, horder r hr, htarget ▸ target?_of_mem hsources hr⟩

/-! ## The symbols of the updates -/

/-- The update of a symbol of the cascade is of the symbol before the renames. -/
@[simp] theorem origin_cascadeUpdate (edit : WorkspaceEdit) (renames : List RenameRequest)
    (cascade : Cascade) (fileOf : FileOf) (id : SymbolId) :
    (cascadeUpdate edit renames cascade fileOf id).origin = id := by
  simp only [ReloadUpdate.origin, cascadeUpdate]
  cases target? renames id <;> rfl

/-- So is that of a symbol that only a file reports. -/
@[simp] theorem origin_fileUpdate (edit : WorkspaceEdit) (id : SymbolId) (path : Path) :
    (fileUpdate edit id path).origin = id := rfl

/-- The updates are those of the cascade, in its order, followed by those of the other symbols that
    the files report. -/
theorem origins_updates (hsources : (renames.map RenameRequest.symbolId).Nodup)
    (horder : ∀ r ∈ renames, r.symbolId ∈ cascade.order) :
    (updates edit renames cascade fileOf).map ReloadUpdate.origin =
      cascade.order ++ (fileOf.map Prod.fst).filter fun id =>
        id ∉ cascade.order ∧ id ∉ renames.map RenameRequest.targetId := by
  -- The second loop skips what the first one covered.
  have hcovered : ∀ id, (id ∉ cascade.order ++ cascade.order.filterMap (target? renames)) ↔
      (id ∉ cascade.order ∧ id ∉ renames.map RenameRequest.targetId) := by
    intro id
    rw [mem_covered_iff hsources horder, not_or]
  simp only [updates, List.map_append, List.map_map, List.filter_map]
  congr 1
  · exact (List.map_congr_left fun id _ => origin_cascadeUpdate _ _ _ _ id).trans (List.map_id _)
  · simp only [hcovered]
    rfl

/-! ## What an update says -/

/-- What the update of a symbol says about it. -/
structure Describes (edit : WorkspaceEdit) (renames : List RenameRequest) (cascade : Cascade)
    (reports : List (SymbolId × Path)) (u : ReloadUpdate) : Prop where
  /-- A renamed symbol has its new identifier, and the one before. -/
  renamed : ∀ r ∈ renames, r.symbolId = u.origin →
    u.previousId = some r.symbolId ∧ u.symbolId = r.targetId
  unrenamed : (∀ r ∈ renames, r.symbolId ≠ u.origin) → u.previousId = none
  /-- The file is the one that the cascade knows, or else the first that reports the symbol under
      its old or under its new identifier. -/
  file : u.filePath = ((cascade.entry? u.origin).bind CascadeEntry.filePath).or
    ((reports.lookup u.origin).or (reports.lookup u.symbolId))
  action : u.action = .recompile ↔ u.origin ∈ cascade.order ∧
    ((∃ r ∈ renames, r.symbolId = u.origin) ∨
      ∃ path, u.filePath = some path ∧ edit.touches path = true)
  /-- The spans of an edited file, in the order in which its edits were added. -/
  touched : ∀ path, u.filePath = some path → edit.touches path = true →
    u.affectedRanges = (edit.editsFor path).map TextEdit.span
  untouched : (∀ path, u.filePath = some path → edit.touches path = false) →
    u.affectedRanges = []

/-- The update of a symbol of the cascade describes it. -/
theorem describes_cascadeUpdate (hsources : (renames.map RenameRequest.symbolId).Nodup)
    (hid : id ∈ cascade.order) :
    Describes edit renames cascade reports
      (cascadeUpdate edit renames cascade (.ofReports reports) id) := by
  let u := cascadeUpdate edit renames cascade (.ofReports reports) id
  have horigin : u.origin = id := origin_cascadeUpdate edit renames cascade (.ofReports reports) id
  have hrenamed : (target? renames id).isSome = true ↔ ∃ r ∈ renames, r.symbolId = id := by
    rw [← not_iff_not, Bool.not_eq_true, Option.isSome_eq_false_iff, Option.isNone_iff_eq_none,
      target?_eq_none_iff]
    simp
  have htouches : u.filePath.any edit.touches = true ↔
      ∃ path, u.filePath = some path ∧ edit.touches path = true := by
    cases u.filePath <;> simp
  have hranges : u.affectedRanges =
      if u.filePath.any edit.touches then (u.filePath.map (ranges edit)).getD [] else [] := rfl
  refine ⟨?_, ?_, ?_, ?_, ?_, ?_⟩
  · intro r hr hsource
    rw [horigin] at hsource
    subst hsource
    simp [cascadeUpdate, target?_of_mem hsources hr]
  · intro hnone
    rw [horigin] at hnone
    simp [cascadeUpdate, target?_eq_none_iff.mpr hnone]
  · rw [horigin]
    simp only [cascadeUpdate, FileOf.lookup_ofReports]
    -- A symbol that is not renamed is looked for under its one identifier.
    cases target? renames id <;> simp
  · have haction : u.action =
        if (target? renames id).isSome || u.filePath.any edit.touches then .recompile
        else .notify := rfl
    rw [horigin, and_iff_right hid, ← hrenamed, ← htouches, ← Bool.or_eq_true]
    show u.action = _ ↔ _
    rw [haction]
    split <;> simp_all
  · intro path hpath htouched
    show u.affectedRanges = _
    rw [hranges, if_pos (htouches.mpr ⟨path, hpath, htouched⟩), show u.filePath = _ from hpath]
    rfl
  · intro huntouched
    show u.affectedRanges = _
    rw [hranges, if_neg]
    intro htouched
    obtain ⟨path, hpath, htouched⟩ := htouches.mp htouched
    rw [huntouched path hpath] at htouched
    cases htouched

/-- So does that of a symbol that only a file reports: it is not renamed, and is only notified. -/
theorem describes_fileUpdate (horder : ∀ r ∈ renames, r.symbolId ∈ cascade.order)
    (hentry : cascade.entry? id = none) (hreport : reports.lookup id = some path)
    (htouches : edit.touches path = true) (hid : id ∉ cascade.order) :
    Describes edit renames cascade reports (fileUpdate edit id path) := by
  -- The symbol is not in the cascade, so what `Describes` asks of renamed and reloaded symbols is
  -- void.
  refine ⟨?_, fun _ => rfl, ?_, ?_, ?_, ?_⟩
  · intro r hr hsource
    rw [origin_fileUpdate] at hsource
    exact absurd (hsource ▸ horder r hr) hid
  · simp [fileUpdate, ReloadUpdate.origin, hentry, hreport]
  · constructor
    · intro haction
      cases haction
    · intro h
      exact absurd h.1 hid
  · intro path' hpath _
    cases hpath
    rfl
  · intro huntouched
    have h := huntouched path rfl
    rw [htouches] at h
    cases h

/-- Every update describes its symbol, where the cascade has an entry for each symbol of its order
    and the reports are from edited files. -/
theorem describes_updates (hsources : (renames.map RenameRequest.symbolId).Nodup)
    (horder : ∀ r ∈ renames, r.symbolId ∈ cascade.order)
    (hentries : cascade.order.Perm (cascade.entries.map CascadeEntry.symbolId))
    (htouches : ∀ id path, (id, path) ∈ reports → edit.touches path = true) {u : ReloadUpdate}
    (hu : u ∈ updates edit renames cascade (.ofReports reports)) :
    Describes edit renames cascade reports u := by
  rcases List.mem_append.mp hu with hcascade | hfile
  · obtain ⟨id, hid, rfl⟩ := List.mem_map.mp hcascade
    exact describes_cascadeUpdate hsources hid
  · obtain ⟨⟨id, path⟩, hentry, rfl⟩ := List.mem_map.mp hfile
    obtain ⟨hmem, hcovered⟩ := List.mem_filter.mp hentry
    have hid : id ∉ cascade.order ∧ id ∉ renames.map RenameRequest.targetId := by
      rw [← not_or, ← mem_covered_iff hsources horder]
      simpa using hcovered
    have hreport := FileOf.lookup_of_mem_ofReports hmem
    -- A symbol that is not in the order of the cascade has no entry.
    have hnone : cascade.entry? id = none := by
      refine List.find?_eq_none.mpr fun entry hentry hsame => hid.1 ?_
      rw [hentries.mem_iff, ← of_decide_eq_true hsame]
      exact List.mem_map_of_mem hentry
    obtain ⟨before, after, hsplit, -⟩ := List.lookup_eq_some_iff.mp hreport
    have hreported : (id, path) ∈ reports := hsplit ▸ List.mem_append_cons_self
    exact describes_fileUpdate horder hnone hreport (htouches id path hreported) hid.1

end Renames

end Reload

/-! ## All updates of a reload -/

/-- A report is by one of the files. -/
theorem Analyzer.mem_files_of_mem_reports {a : Analyzer} {files : List Path} {id : SymbolId}
    {path : Path} (h : (id, path) ∈ a.reports files) : path ∈ files := by
  obtain ⟨file, hfile, hreport⟩ := List.mem_flatMap.mp h
  obtain ⟨symbol, -, heq⟩ := List.mem_map.mp hreport
  cases heq
  exact hfile

/-- The files of an edit are touched by it. -/
theorem WorkspaceEdit.touches_of_mem_files {edit : WorkspaceEdit} {path : Path}
    (h : path ∈ edit.files) : edit.touches path = true := by
  obtain ⟨change, hchange, rfl⟩ := List.mem_map.mp (Path.mem_of_mem_set h)
  exact List.any_eq_true.mpr ⟨change, hchange, Path.same_self _⟩

namespace Engine

variable {e : Engine} {edit : WorkspaceEdit} {renames : List RenameRequest}
  {read : Path → Except StorageError String} {plan : ReloadPlan}

/-- Asking the files one by one adds their reports. -/
theorem fileSymbols_eq_ok {files : List Path} {fileOf fileOf' : Reload.FileOf}
    (h : (e.fileSymbols files fileOf).result = .ok fileOf') :
    fileOf' = (e.analyzer.reports files).foldl Reload.FileOf.add fileOf := by
  induction files generalizing fileOf with
  | nil => exact (Except.ok.inj h).symm
  | cons path files ih =>
    rw [fileSymbols, Inquiry.result_bind, Except.bind_eq_ok] at h
    obtain ⟨symbols, hask, hrest⟩ := h
    rw [Inquiry.result_ask, Except.mapError_eq_ok] at hask
    -- What is asked for is what the reports take for the file, also where the analyzer cannot tell.
    have hsymbols : e.analyzer.symbolsOf path = symbols := by
      rcases Answer.orDefault_eq_ok.mp hask with hanswer | ⟨⟨c, hanswer⟩, hdefault⟩
      · simp [Analyzer.symbolsOf, hanswer]
      · simp [Analyzer.symbolsOf, hanswer, hdefault]
    have hreports : e.analyzer.reports (path :: files) =
        (symbols.map fun id => (id, path)) ++ e.analyzer.reports files := by
      rw [← hsymbols]
      rfl
    rw [ih hrest, Reload.FileOf.report_eq_foldl, hreports, List.foldl_append]

/-- A reload is made from the cascade and from what the edited files report. -/
theorem prepareReload_eq_ok (h : (e.prepareReload edit renames read).result = .ok plan) :
    (e.cascade (renames.map RenameRequest.symbolId)).result = .ok plan.cascade ∧
      plan.updates = Reload.updates edit renames plan.cascade
        (.ofReports (e.analyzer.reports edit.files)) := by
  simp only [prepareReload, Inquiry.result_bind, Except.bind_eq_ok] at h
  obtain ⟨cascade, hcascade, fileOf, hfileOf, patches, -, hplan⟩ := h
  cases hplan
  rw [fileSymbols_eq_ok hfileOf]
  exact ⟨hcascade, rfl⟩

/-- The updates of a reload cover, each once, the symbols of the cascade in its order, and then the
    symbols that the edited files report and that are neither in the cascade nor known by an
    identifier that a rename gives. Every update describes its symbol. -/
theorem prepareReload_updates (hsources : (renames.map RenameRequest.symbolId).Nodup)
    (h : (e.prepareReload edit renames read).result = .ok plan) :
    (e.cascade (renames.map RenameRequest.symbolId)).result = .ok plan.cascade ∧
      plan.updates.map ReloadUpdate.origin =
        plan.cascade.order ++
          ((e.analyzer.reports edit.files).map Prod.fst).eraseDups.filter (fun id =>
            id ∉ plan.cascade.order ∧ id ∉ renames.map RenameRequest.targetId) ∧
      (plan.updates.map ReloadUpdate.origin).Nodup ∧
      ∀ u ∈ plan.updates,
        Reload.Describes edit renames plan.cascade (e.analyzer.reports edit.files) u := by
  obtain ⟨hcascade, hupdates⟩ := prepareReload_eq_ok h
  have hclosure := Cascade.isClosure_of_cascade hcascade
  have horder : ∀ r ∈ renames, r.symbolId ∈ plan.cascade.order := by
    intro r hr
    rw [hclosure.order.mem_iff, hclosure.mem_entries]
    exact .root (List.mem_map_of_mem hr)
  have horigins := congrArg (List.map ReloadUpdate.origin) hupdates
  rw [Reload.origins_updates hsources horder, Reload.FileOf.keys_ofReports] at horigins
  refine ⟨hcascade, horigins, ?_, ?_⟩
  · rw [horigins]
    refine List.Nodup.append (hclosure.order.nodup_iff.mpr hclosure.nodup)
      ((nodup_eraseDups _).filter _) ?_
    -- What the files add is not in the cascade.
    intro id hid hother
    have hnew := of_decide_eq_true (List.mem_filter.mp hother).2
    exact hnew.1 hid
  · intro u hu
    rw [hupdates] at hu
    refine Reload.describes_updates hsources horder hclosure.order ?_ hu
    intro id path hreport
    exact WorkspaceEdit.touches_of_mem_files (Analyzer.mem_files_of_mem_reports hreport)

/-- A script `s` with a dependent `a`. Its file reports it by the identifier that it gets. -/
def reporting : AnalyzerTables where
  dependents := some [(Cascade.script "s", ⟨Cascade.script "a", none⟩)]
  fileSymbols := some [(⟨"p/s.gml"⟩, [Cascade.script "t", Cascade.script "u", Cascade.script "t"])]

/-- Two edits of one file, under two spellings. -/
def reported : WorkspaceEdit where
  edits := [⟨⟨"p//s.gml"⟩, 4, 5, "t"⟩, ⟨⟨"p/s.gml"⟩, 0, 1, "t"⟩]

/-- The cascade of the script. -/
def reportingCascade : Cascade where
  entries := [⟨Cascade.script "s", 0, "changed directly", none⟩,
    ⟨Cascade.script "a", 1, "depends on p/script/s", none⟩]
  order := [Cascade.script "s", Cascade.script "a"]
  circular := []
  totalSymbols := 2
  maxDistance := 1
  hasCircular := false

/-- The cascade is that of the script and its dependent. -/
theorem cascade_reporting :
    (({ analyzer := reporting.analyzer } : Engine).cascade [Cascade.script "s"]).result =
      .ok reportingCascade :=
  Except.toOption_eq_some.mp (by cbv)

/-- The updates of the renamed script, its dependent, and the other symbol of its file. -/
def reportedUpdates : List ReloadUpdate :=
  [⟨Cascade.script "t", some (Cascade.script "s"), .recompile, some ⟨"p/s.gml"⟩, [⟨4, 5⟩, ⟨0, 1⟩]⟩,
    ⟨Cascade.script "a", none, .notify, none, []⟩,
    ⟨Cascade.script "u", none, .notify, some ⟨"p/s.gml"⟩, [⟨4, 5⟩, ⟨0, 1⟩]⟩]

/-- The last spelling of the file is kept. -/
theorem files_reported : reported.files = [⟨"p/s.gml"⟩] := by
  have hlast : Path.lastSpellings (reported.edits.map TextEdit.path) = [⟨"p/s.gml"⟩] := by
    decide +kernel
  rw [WorkspaceEdit.files, Path.set, hlast, Path.sort, List.mergeSort_singleton]

/-- The reload is prepared. -/
theorem prepareReload_reporting :
    ((({ analyzer := reporting.analyzer } : Engine).prepareReload reported
      [⟨Cascade.script "s", "t"⟩] fun _ => .ok "t = t").result.map ReloadPlan.updates).toOption =
        some reportedUpdates := by
  simp only [prepareReload, List.map_cons, List.map_nil, Inquiry.result_bind, cascade_reporting,
    files_reported]
  decide +kernel

/-- The symbol that the file reports twice is updated once. -/
theorem prepareReload_updates_reporting :
    ∃ plan, (({ analyzer := reporting.analyzer } : Engine).prepareReload reported
        [⟨Cascade.script "s", "t"⟩] fun _ => .ok "t = t").result = .ok plan ∧
      plan.updates = reportedUpdates ∧
      (plan.updates.map ReloadUpdate.origin).Nodup ∧
      ∀ u ∈ plan.updates, Reload.Describes reported [⟨Cascade.script "s", "t"⟩] plan.cascade
        (reporting.analyzer.reports reported.files) u := by
  obtain ⟨plan, hplan, hupdates⟩ :=
    Except.map_eq_ok.mp (Except.toOption_eq_some.mp prepareReload_reporting)
  obtain ⟨-, -, hnodup, hdescribes⟩ := prepareReload_updates (by decide) hplan
  exact ⟨plan, hplan, hupdates, hnodup, hdescribes⟩

end Engine
end HotRename
