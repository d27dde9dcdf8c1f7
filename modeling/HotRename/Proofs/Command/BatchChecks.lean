import HotRename.Proofs.Command.BatchOfOne
import HotRename.Proofs.Rename.BatchIntegrity
import HotRename.Proofs.Rename.BatchOrder

/-!
# The checks that the command for several renames reports

The command reports a check for each rename that it wrote. A rename whose old name is given to
another symbol of its files fails its check, although the files are as they should be. Main
statements:

* `run_batch_eq_ok`        a run of the command that goes through
* `run_batch_checks`       which renames pass their checks
* `run_batch_chain_fails`  a chain of renames that is written as it should be and fails a check
-/

namespace HotRename

namespace CommandLine

/-- The engine of an invocation has no parser that could refuse a file. -/
theorem parsesAll_of_openEngine {inv : Invocation} {tree : FileTree} {e : Engine}
    (h : openEngine inv tree = .ok e) : e.ParsesAll := by
  obtain ⟨config, -, h⟩ := Except.bind_eq_ok.mp h
  obtain ⟨index, -, h⟩ := Except.bind_eq_ok.mp h
  cases h
  exact fun _ _ => ⟨none, rfl⟩

/-- The command goes through exactly if the engine of the invocation carries out the batch. -/
theorem run_batch_eq_ok {inv : Invocation} {tree tree' : FileTree} {doc : Json}
    {pairs : List String} {renames : List RenameRequest}
    (hcommand : inv.command = .batch pairs true false)
    (hpairs : parsePairs pairs = .ok renames) :
    run inv tree = (.ok doc, tree') ↔
      ∃ e, openEngine inv tree = .ok e ∧ ∃ (outcome : BatchOutcome) (d' : Disk),
        (e.executeBatch renames false ({ root := inv.root, tree } : Disk)).answer =
          (.ok outcome, d') ∧ outcome.toJson = doc ∧ d'.tree = tree' := by
  unfold run
  cases hengine : openEngine inv tree with
  | error err => simp
  | ok e =>
    simp only [hcommand, Command.run, hpairs, if_true, written_eq, Except.ok.injEq,
      exists_eq_left']
    -- The document and the files are those of the outcome, whichever it is.
    rcases (e.executeBatch renames false ({ root := inv.root, tree } : Disk)).answer with
      ⟨err | outcome, d'⟩
    · simp [Except.map, Except.mapError]
    · simp [Except.map, Except.mapError]

/-! ## A chain of renames -/

open Engine Text

/-- A manifest with two variables in one file. -/
def chainManifest : Manifest :=
  .ofOccurrences [("proj/var/hp", [⟨⟨"a.gml"⟩, 0, 2, none, .definition⟩]),
    ("proj/var/mp", [⟨⟨"a.gml"⟩, 5, 7, none, .definition⟩])]

/-- What is known of the two variables. -/
def chainIndex : ManifestIndex where
  symbols := [hp, mp]
  occurrences := [(hp, [⟨⟨"a.gml"⟩, 0, 2, none, .definition⟩]),
    (mp, [⟨⟨"a.gml"⟩, 5, 7, none, .definition⟩])]
  bindings := []
  dependents := []
  reservedWords := []
  fileSymbols := []

/-- What the text of the manifest is read as. -/
theorem parse_chainManifest :
    ManifestIndex.parse (Json.compact chainManifest.toJson) = .ok chainIndex :=
  ManifestIndex.parse_compact (Manifest.representable_ofOccurrences (by decide) (by decide))
    (by decide) (by decide) rfl

/-- The engine that knows the two variables. -/
def chainEngine : Engine := { analyzer := chainIndex.analyzer }

/-- The first variable gets the name of the second one, which gets a new name. -/
def chainRenames : List RenameRequest := [⟨hp, "mp"⟩, ⟨mp, "sp"⟩]

/-- The plan for both. -/
def chainPlan : BatchPlan where
  plans :=
    [{ symbolId := hp, oldName := "hp", newName := "mp",
       edit := ⟨[⟨⟨"a.gml"⟩, 0, 2, "mp"⟩]⟩, notices := [] },
     { symbolId := mp, oldName := "mp", newName := "sp",
       edit := ⟨[⟨⟨"a.gml"⟩, 5, 7, "sp"⟩]⟩, notices := [] }]
  edit := ⟨[⟨⟨"a.gml"⟩, 0, 2, "mp"⟩, ⟨⟨"a.gml"⟩, 5, 7, "sp"⟩]⟩

/-- The project with a file of the given text. -/
def chainTree (text : String) : FileTree := projectTree (Json.compact chainManifest.toJson) text

/-- The batch is planned although one rename takes the name that another gives up. -/
theorem planBatch_chain : (chainEngine.planBatch chainRenames).result = .ok chainPlan := by
  refine planBatch_eq_ok_iff.mpr
    ⟨⟨by decide, by decide, by decide, by decide, ?_⟩, ?_, rfl, .inr ?_⟩
  · -- The chain ends with a name that no symbol has.
    intro chain hsub hclosed
    have hlink : ∀ r ∈ chainRenames, ∀ r' ∈ chainRenames, r.targetId = r'.symbolId →
        ∀ r'' ∈ chainRenames, r'.targetId ≠ r''.symbolId := by decide
    obtain ⟨r, hr, r', hr', hnext⟩ := hclosed.exists_link
    obtain ⟨r'', hr'', hnext'⟩ := hclosed.exists_next hr'
    exact hlink r (hsub hr) r' (hsub hr') hnext r'' (hsub hr'') hnext'
  · refine .cons ?_ (.cons ?_ .nil)
    · exact Except.toOption_eq_some.mp (by decide +kernel)
    · exact Except.toOption_eq_some.mp (by decide +kernel)
  · exact WorkspaceEdit.validate_eq_ok_iff.mpr
      ⟨by decide, by decide, by simp [chainPlan, TextEdit.Disjoint]⟩

/-- The edits to the one file, the last one first. -/
theorem groups_chain : chainPlan.edit.groups =
    [(⟨"a.gml"⟩, [⟨⟨"a.gml"⟩, 5, 7, "sp"⟩, ⟨⟨"a.gml"⟩, 0, 2, "mp"⟩])] := by
  have hedits : chainPlan.edit.editsFor ⟨"a.gml"⟩ =
      [⟨⟨"a.gml"⟩, 0, 2, "mp"⟩, ⟨⟨"a.gml"⟩, 5, 7, "sp"⟩] := by decide
  have hkeys : chainPlan.edit.groupKeys = [⟨"a.gml"⟩] := by cbv
  rw [WorkspaceEdit.groups, hkeys, List.map_singleton, hedits]
  cbv

/-- The batch passes validation. -/
theorem preparedBatch_chain : chainEngine.preparedBatch chainRenames =
    .ok (chainPlan, { files := 1, edits := 2, warnings := [] }) := by
  have hvalidate : (chainEngine.validate chainPlan.edit).result =
      .ok { files := 1, edits := 2, warnings := [] } := by
    rw [← Except.toOption_eq_some, validate, WorkspaceEdit.validate, groups_chain]
    cbv
  exact Except.bind_eq_ok.mpr ⟨_, planBatch_chain, Except.bind_eq_ok.mpr ⟨_, hvalidate, rfl⟩⟩

/-- The project as a store. -/
def chainDisk (text : String) : Disk where
  root := ⟨"."⟩
  tree := chainTree text

/-- The file is read under its path in the project. -/
theorem read_chainDisk (text : String) : Store.read (chainDisk text) ⟨"a.gml"⟩ = .ok text :=
  read_projectTree _ text

/-- Writing the file gives the project with the new text. -/
theorem write_chainDisk (text new : String) :
    Store.write (chainDisk text) ⟨"a.gml"⟩ new = .ok (chainDisk new) :=
  write_projectTree _ text new

/-- Both variables get their new names. -/
theorem run_chainDisk : Apply.run chainPlan.edit false (chainDisk "hp = mp;") =
    (.ok { files := [(⟨"a.gml"⟩, "mp = sp;")], written := true }, chainDisk "mp = sp;") := by
  have hvalid : chainPlan.edit.validate = .ok () := by
    rw [WorkspaceEdit.validate, groups_chain]
    rfl
  exact Apply.run_of_oneGroup hvalid groups_chain (read_chainDisk _)
    (Splice.apply_of_tailFirst (by decide) (by decide) (by decide)) (write_chainDisk _ _)

/-- Neither variable has dependents, so the cascade is the two of them. -/
theorem cascade_chain : (chainEngine.cascade [hp, mp]).result = .ok {
    entries := [⟨hp, 0, "changed directly", none⟩, ⟨mp, 0, "changed directly", none⟩]
    order := [hp, mp]
    circular := []
    totalSymbols := 2
    maxDistance := 0
    hasCircular := false } := by
  have hwalk : (Cascade.walk _ (chainEngine.analyzer.finite [hp, mp]) (.start [hp, mp])
      (Cascade.start_reached _ _)).answer =
      .ok (((Cascade.Walk.start [hp, mp]).expand hp [] [mp]).expand mp [] []) :=
    Cascade.walk_expand rfl (by decide) rfl fun _ =>
      Cascade.walk_expand rfl (by decide) rfl fun _ => Cascade.walk_nil rfl
  rw [cascade_of_walk hwalk]
  cbv

/-- The checks and the reload go through after the write. -/
theorem finishBatch_chain : (chainEngine.finishBatch chainRenames chainPlan
    { files := 1, edits := 2, warnings := [] }
    { files := [(⟨"a.gml"⟩, "mp = sp;")], written := true }
    (Store.read (chainDisk "mp = sp;"))).result.isOk = true := by
  have hfiles : Path.set [⟨"a.gml"⟩] = [⟨"a.gml"⟩] := by decide +kernel
  simp only [finishBatch, prepareReload, verifyEach, verify, chainPlan, chainRenames,
    WorkspaceEdit.files, List.map_cons, List.map_nil, hfiles, inspectAll, Engine.inspect,
    read_chainDisk, Inquiry.result_bind, cascade_chain]
  decide +kernel

/-- Where the path of the file leads. -/
theorem location?_chainDisk (text : String) :
    (chainDisk text).location? ⟨"a.gml"⟩ = some ["a.gml"] :=
  Disk.location?_of_locate resolve_projectTree (locate_projectTree _ text).2.2

/-- A name that stands once in the file occurs as a word at the one place where it stands. -/
theorem occursAsWords_chain {text name : String} {start stop : Nat}
    (hoffsets : wordOffsets .unicode name.toList (maskComments text.toList) = [start])
    (hstop : stop = start + byteLength name.toList) :
    (chainDisk text).OccursAsWords .unicode name [⟨⟨"a.gml"⟩, start, stop, none, .definition⟩] := by
  rintro loc content ⟨o, ho, hloc⟩ hholds n m
  -- The only occurrence is in the file, so the content is the text of the file.
  cases List.mem_singleton.mp ho
  cases hloc.symm.trans (location?_chainDisk text)
  have htext : (chainDisk text).tree.Holds ["a.gml"] text := ⟨_, rfl, rfl⟩
  cases hholds.eq htext
  rw [← mem_wordOffsets, hoffsets]
  simp only [List.mem_singleton, exists_eq_left, location?_chainDisk, true_and]
  omega

/-- The manifest reports every place where an old name stands as a word. -/
theorem occursAsWords_chainRenames : ∀ r ∈ chainRenames,
    (chainDisk "hp = mp;").OccursAsWords .unicode r.oldName
      (chainIndex.analyzer.reported r.symbolId) := by
  intro r hr
  simp only [chainRenames, List.mem_cons, List.not_mem_nil, or_false] at hr
  rcases hr with rfl | rfl
  · exact occursAsWords_chain (by decide) (by decide)
  · exact occursAsWords_chain (by decide) (by decide)

/-- The batch is carried out. -/
theorem executeBatch_chain : ∃ outcome : BatchOutcome,
    (chainEngine.executeBatch chainRenames false (chainDisk "hp = mp;")).answer =
      (.ok outcome, chainDisk "mp = sp;") := by
  obtain ⟨outcome, hfinish⟩ := Except.isOk_iff.mp finishBatch_chain
  refine ⟨outcome, ?_⟩
  rw [executeBatch_answer, preparedBatch_chain]
  simp only [run_chainDisk, hfinish]
  rfl

/-- The check of the first variable passes, and that of the second one, whose name the first one
    has got, does not. -/
theorem checks_chain {checks : List RenameCheck}
    (h : List.Forall₂ (chainIndex.analyzer.ChecksExactly (chainDisk "hp = mp;") chainRenames)
      chainRenames checks) :
    ∃ first second, checks = [first, second] ∧ first.report.valid = true ∧
      second.report.valid = false := by
  have hpath : ∀ r ∈ chainRenames, ∀ o ∈ chainIndex.analyzer.reported r.symbolId,
      o.path = ⟨"a.gml"⟩ := by decide
  have hone : ∀ r ∈ chainRenames,
      chainIndex.analyzer.OnePathFor (chainDisk "hp = mp;") chainRenames r := by
    intro r hr r' hr' o ho o' ho' loc _ _
    rw [hpath r hr o ho, hpath r' hr' o' ho']
    exact Path.same_self _
  obtain ⟨first, rest, hfirst, hrest, rfl⟩ := List.forall₂_cons_left_iff.mp h
  obtain ⟨second, others, hsecond, hothers, rfl⟩ := List.forall₂_cons_left_iff.mp hrest
  cases List.forall₂_nil_left_iff.mp hothers
  refine ⟨first, second, rfl, ?_, ?_⟩
  -- No symbol gets the name `hp`, so nothing is left of the first variable.
  · have hname : ∀ r ∈ chainRenames, r.newName ≠ "hp" := by decide
    refine hfirst.valid_iff.mpr ((hfirst.passes_iff (hone _ (by decide))).mpr ⟨?_, ?_⟩)
    · intro p hp
      obtain ⟨o, ho, rfl⟩ := List.mem_map.mp (Path.mem_of_mem_set hp)
      rw [hpath _ (by decide) o ho]
      exact ⟨_, read_chainDisk _⟩
    · intro r' hr' hnew
      exact absurd hnew (hname r' hr')
  -- The first variable gets the old name of the second one in the file of both.
  · apply Bool.eq_false_iff.mpr
    intro hvalid
    obtain ⟨-, hfree⟩ :=
      (hsecond.passes_iff (hone _ (by decide))).mp (hsecond.valid_iff.mp hvalid)
    exact hfree ⟨hp, "mp"⟩ (by decide) rfl ["a.gml"]
      ⟨_, List.mem_cons_self, location?_chainDisk _⟩ ⟨_, List.mem_cons_self, location?_chainDisk _⟩

/-- The invocation that carries out the chain. -/
def chainInvocation : Invocation :=
  hpInvocation.withCommand (.batch ["proj/var/hp=mp", "proj/var/mp=sp"] true false)

/-- How the two pairs are read. -/
theorem parsePairs_chain :
    parsePairs ["proj/var/hp=mp", "proj/var/mp=sp"] = .ok chainRenames :=
  Except.toOption_eq_some.mp (by decide)

/-- The manifest of the project is found and read. -/
theorem load_chainTree (text : String) :
    ManifestIndex.load chainInvocation.manifest
      ((chainTree text).readText chainInvocation.manifest) = .ok chainIndex :=
  load_projectTree parse_chainManifest text

/-- The project has no settings file, so the engine has the defaults. -/
theorem openEngine_chainTree (text : String) :
    openEngine chainInvocation (chainTree text) = .ok chainEngine :=
  openEngine_projectTree parse_chainManifest text

/-- A batch that is carried out is one that the command carries out. -/
theorem run_chainTree {outcome : BatchOutcome}
    (h : (chainEngine.executeBatch chainRenames false (chainDisk "hp = mp;")).answer =
      (.ok outcome, chainDisk "mp = sp;")) :
    run chainInvocation (chainTree "hp = mp;") = (.ok outcome.toJson, chainTree "mp = sp;") :=
  (run_batch_eq_ok rfl parsePairs_chain).mpr
    ⟨chainEngine, openEngine_chainTree _, outcome, _, h, rfl, rfl⟩

/-! ## The reports -/

/-- When several renames are written, each of them is checked. The check of a rename passes if the
    paths of its files can be read and no symbol that occurs in one of them gets its old name. The
    old names have to be words, and the occurrences those places where they stand outside
    comments. -/
theorem run_batch_checks {inv : Invocation} {tree tree' : FileTree} {doc : Json}
    {pairs : List String} {renames : List RenameRequest} {index : ManifestIndex}
    (hcommand : inv.command = .batch pairs true false)
    (hpairs : parsePairs pairs = .ok renames)
    (hindex : ManifestIndex.load inv.manifest (tree.readText inv.manifest) = .ok index)
    (hnames : ∀ r ∈ renames, Identifier.isName r.oldName.toList = true)
    (hwords : ∀ r ∈ renames, Disk.OccursAsWords .unicode { root := inv.root, tree } r.oldName
      (index.analyzer.reported r.symbolId))
    (h : run inv tree = (.ok doc, tree')) :
    ∃ (outcome : BatchOutcome) (checks : List RenameCheck),
      doc = outcome.toJson ∧ outcome.integrity = some checks ∧
      List.Forall₂ (index.analyzer.ChecksExactly { root := inv.root, tree } renames)
        renames checks := by
  obtain ⟨e, hengine, outcome, d', hexecute, rfl, rfl⟩ := (run_batch_eq_ok hcommand hpairs).mp h
  obtain ⟨index', hindex', hanalyzer, hunicode⟩ := openEngine_eq_ok hengine
  -- The engine asks the index of the manifest, so what holds of the one holds of the other.
  cases hindex.symm.trans hindex'
  rw [← hanalyzer] at hwords ⊢
  rw [← hunicode] at hwords
  obtain ⟨checks, hintegrity, hchecks⟩ :=
    Engine.executeBatch_checks (parsesAll_of_openEngine hengine) hnames hwords hexecute
  exact ⟨outcome, checks, rfl, hintegrity, hchecks⟩

/-- The chain of renames satisfies all conditions, and the command reports checks for it. -/
theorem run_batch_checks_chain :
    parsePairs ["proj/var/hp=mp", "proj/var/mp=sp"] = .ok chainRenames ∧
    ManifestIndex.load chainInvocation.manifest
      ((chainTree "hp = mp;").readText chainInvocation.manifest) = .ok chainIndex ∧
    (∀ r ∈ chainRenames, Identifier.isName r.oldName.toList = true) ∧
    (∀ r ∈ chainRenames, (chainDisk "hp = mp;").OccursAsWords .unicode r.oldName
      (chainIndex.analyzer.reported r.symbolId)) ∧
    ∃ (outcome : BatchOutcome) (checks : List RenameCheck),
      run chainInvocation (chainTree "hp = mp;") =
        (.ok outcome.toJson, chainTree "mp = sp;") ∧
      outcome.integrity = some checks ∧
      List.Forall₂ (chainIndex.analyzer.ChecksExactly (chainDisk "hp = mp;") chainRenames)
        chainRenames checks := by
  have hnames : ∀ r ∈ chainRenames, Identifier.isName r.oldName.toList = true := by decide
  obtain ⟨outcome, hexecute⟩ := executeBatch_chain
  have hrun := run_chainTree hexecute
  obtain ⟨outcome', checks, hdoc, hintegrity, hchecks⟩ :=
    run_batch_checks rfl parsePairs_chain (load_chainTree _) hnames occursAsWords_chainRenames hrun
  rw [hdoc] at hrun
  exact ⟨parsePairs_chain, load_chainTree _, hnames, occursAsWords_chainRenames, outcome', checks,
    hrun, hintegrity, hchecks⟩

/-- A batch that is written as it should be, and whose second rename fails its check: the name that
    the check finds is the new one of the first rename. -/
theorem run_batch_chain_fails :
    (∀ r ∈ chainRenames, Identifier.isName r.oldName.toList = true) ∧
    (∀ r ∈ chainRenames, (chainDisk "hp = mp;").OccursAsWords .unicode r.oldName
      (chainIndex.analyzer.reported r.symbolId)) ∧
    ∃ (outcome : BatchOutcome) (first second : RenameCheck),
      run chainInvocation (chainTree "hp = mp;") =
        (.ok outcome.toJson, chainTree "mp = sp;") ∧
      outcome.integrity = some [first, second] ∧ first.report.valid = true ∧
      second.report.valid = false := by
  have hnames : ∀ r ∈ chainRenames, Identifier.isName r.oldName.toList = true := by decide
  obtain ⟨outcome, hexecute⟩ := executeBatch_chain
  obtain ⟨checks, hintegrity, hchecks⟩ :=
    executeBatch_checks (fun _ _ => ⟨none, rfl⟩) hnames occursAsWords_chainRenames hexecute
  obtain ⟨first, second, rfl, hfirst, hsecond⟩ := checks_chain hchecks
  exact ⟨hnames, occursAsWords_chainRenames, outcome, first, second, run_chainTree hexecute,
    hintegrity, hfirst, hsecond⟩

end CommandLine
end HotRename
