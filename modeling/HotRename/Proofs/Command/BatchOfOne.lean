import HotRename.Proofs.Project.Reading
import HotRename.Proofs.Rename.ExecuteBatch

/-!
# The command for one rename and that for several

Renaming one symbol by the command for several does what the command for one does: both fail with
the same error, or both have the same result and leave the same files. The two read their arguments
in different ways, and work in different ways from then on. Main statements:

* `splitPair?_append`  how a symbol and a name are read back from a pair
* `run_batch_of_one`   the two commands
-/

namespace HotRename

/-- The manifest spells each file in which a symbol occurs one way. -/
def ManifestIndex.SpellsOneWay (m : ManifestIndex) : Prop :=
  Path.SpelledOneWay (m.occurrences.flatMap fun entry => entry.2.map Occurrence.path)

/-- If all files are spelled one way, so are those of one symbol. -/
theorem ManifestIndex.SpellsOneWay.occurrences {m : ManifestIndex} (h : m.SpellsOneWay)
    {id : SymbolId} {occurrences : List Occurrence}
    (hocc : m.analyzer.occurrences id = .ok occurrences) :
    Path.SpelledOneWay (occurrences.map Occurrence.path) := by
  have hlisted : ∀ p ∈ occurrences.map Occurrence.path,
      p ∈ m.occurrences.flatMap fun entry => entry.2.map Occurrence.path := by
    intro p hp
    cases hocc
    obtain ⟨o, ho, rfl⟩ := List.mem_map.mp hp
    obtain ⟨row, hrow, ho⟩ := exists_row_of_mem_lookup ho
    exact List.mem_flatMap.mpr ⟨row, hrow, List.mem_map_of_mem ho⟩
  exact fun p hp q hq => h p (hlisted p hp) q (hlisted q hq)

namespace CommandLine

/-- A pair is split at its last equality sign, so a name without one is read back. -/
theorem splitPair?_append (symbol : String) {name : String} (h : '=' ∉ name.toList) :
    splitPair? (symbol ++ "=" ++ name) = some (symbol, name) := by
  have hreverse : (symbol ++ "=" ++ name).toList.reverse =
      name.toList.reverse ++ '=' :: symbol.toList.reverse := by
    simp
  have hname : ∀ c ∈ name.toList.reverse, decide (c ≠ '=') = true := by
    intro c hc
    refine decide_eq_true ?_
    rintro rfl
    exact h (List.mem_reverse.mp hc)
  -- From its end, the pair is the name up to the first equality sign, and then the symbol.
  rw [splitPair?, hreverse, List.dropWhile_append_of_pos hname, List.takeWhile_append_of_pos hname]
  simp

/-- One pair is read as the request that it is made of. -/
theorem parsePairs_append (symbol : String) {name : String} (h : '=' ∉ name.toList) :
    parsePairs [symbol ++ "=" ++ name] = (parseRequest symbol name).map fun r => [r] := by
  rw [parsePairs, parsePair, splitPair?_append symbol h, parseRequest]
  dsimp only
  cases RenameRequest.parse symbol name <;> rfl

/-- The engine of an invocation asks the index of its manifest, and searches for words of the
    Unicode tables. -/
theorem openEngine_eq_ok {inv : Invocation} {tree : FileTree} {e : Engine}
    (h : openEngine inv tree = .ok e) :
    ∃ index, ManifestIndex.load inv.manifest (tree.readText inv.manifest) = .ok index ∧
      e.analyzer = index.analyzer ∧ e.words = .unicode := by
  obtain ⟨config, -, h⟩ := Except.bind_eq_ok.mp h
  obtain ⟨index, hindex, h⟩ := Except.bind_eq_ok.mp h
  cases h
  exact ⟨index, Except.mapError_eq_ok.mp hindex, rfl, rfl⟩

/-- A request has the symbol that was named and the new name as it was given. -/
theorem parseRequest_eq_ok {symbol newName : String} {r : RenameRequest}
    (h : parseRequest symbol newName = .ok r) :
    SymbolId.parse symbol = .ok r.symbolId ∧ r.newName = newName := by
  have hparse := Except.mapError_eq_ok.mp h
  unfold RenameRequest.parse at hparse
  split at hparse
  · rename_i id hid
    cases hparse
    exact ⟨hid, rfl⟩
  · exact nomatch hparse

/-- What is reported of a command that writes. -/
theorem written_eq (encode : α → Json) (outcome : Asked (Except RenameError α × Disk)) :
    written encode outcome =
      ((outcome.answer.1.map encode).mapError .rename, outcome.answer.2.tree) := rfl

/-- The same invocation with another command. -/
def Invocation.withCommand (inv : Invocation) (command : Command) : Invocation :=
  { inv with command }

/-- The engine does not depend on the command. -/
theorem openEngine_withCommand (inv : Invocation) (command : Command) (tree : FileTree) :
    openEngine (inv.withCommand command) tree = openEngine inv tree := rfl

/-! ## A project on disk -/

open Engine

/-- A manifest that says where a variable occurs. -/
def hpManifest : Manifest where
  symbols := []
  occurrences := [("proj/var/hp", hpOccurrences)]
  bindings := []
  dependents := []
  reservedWords := []
  fileSymbols := []

/-- What is known of the variable. -/
def hpIndex : ManifestIndex where
  symbols := [hp]
  occurrences := [(hp, hpOccurrences)]
  bindings := []
  dependents := []
  reservedWords := []
  fileSymbols := []

/-- What the text of the manifest is read as. -/
theorem parse_hpManifest :
    ManifestIndex.parse (Json.compact hpManifest.toJson) = .ok hpIndex :=
  ManifestIndex.parse_compact
    (@Manifest.representable_ofOccurrences [("proj/var/hp", hpOccurrences)] (by decide) (by decide))
    (by decide) (by decide) rfl

/-- A project of the manifest and one file. -/
def hpTree (text : String) : FileTree where
  entries :=
    [(["hrr-manifest.json"], .file { bytes := (Json.compact hpManifest.toJson).toUTF8 }),
      (["a.gml"], .file { bytes := text.toUTF8 })]
  workingDirectory := []

/-- The engine that knows the variable. -/
def hpEngine : Engine := { analyzer := hpIndex.analyzer }

/-- The manifest of the project is found and read. -/
theorem load_hpTree (text : String) :
    ManifestIndex.load hpInvocation.manifest ((hpTree text).readText hpInvocation.manifest) =
      .ok hpIndex :=
  load_projectTree parse_hpManifest text

/-- The engine of the project is the one that knows the variable. -/
theorem openEngine_hpTree (text : String) :
    openEngine hpInvocation (hpTree text) = .ok hpEngine :=
  openEngine_projectTree parse_hpManifest text

/-- The project as a store. -/
def hpDisk (text : String) : Disk where
  root := ⟨"."⟩
  tree := hpTree text

/-- The file is read under its path in the project. -/
theorem read_hpDisk (text : String) : Store.read (hpDisk text) ⟨"a.gml"⟩ = .ok text :=
  read_projectTree _ text

/-- Writing the file gives the project with the new text. -/
theorem write_hpDisk (text new : String) :
    Store.write (hpDisk text) ⟨"a.gml"⟩ new = .ok (hpDisk new) :=
  write_projectTree _ text new

/-- The rename is planned and valid. -/
theorem prepared_hpEngine : hpEngine.prepared ⟨hp, "life"⟩ =
    .ok (hpPlan, { files := 1, edits := 2, warnings := [] }) := by
  have hplan : (hpEngine.plan ⟨hp, "life"⟩).result = .ok hpPlan := by
    rw [← Except.toOption_eq_some]
    decide +kernel
  have hvalidate : (hpEngine.validate hpPlan.edit).result =
      .ok { files := 1, edits := 2, warnings := [] } := by
    rw [← Except.toOption_eq_some, validate, WorkspaceEdit.validate,
      show hpPlan.edit.groups = _ from groups_hpOccurrences]
    cbv
  exact Except.bind_eq_ok.mpr ⟨_, hplan, Except.bind_eq_ok.mpr ⟨_, hvalidate, rfl⟩⟩

/-- Both occurrences are replaced, also behind the letter of two bytes. -/
theorem run_hpDisk : Apply.run hpPlan.edit false (hpDisk "é hp = hp;") =
    (.ok { files := [(⟨"a.gml"⟩, "é life = life;")], written := true },
      hpDisk "é life = life;") :=
  Apply.run_of_oneGroup validate_hpOccurrences groups_hpOccurrences (read_hpDisk _)
    (Splice.apply_of_tailFirst (by decide) (by decide) (by decide)) (write_hpDisk _ _)

/-- The steps after the write go through. -/
theorem finish_hpDisk : (hpEngine.finish ⟨hp, "life"⟩ hpPlan
    { files := 1, edits := 2, warnings := [] }
    { files := [(⟨"a.gml"⟩, "é life = life;")], written := true }
    (Store.read (hpDisk "é life = life;"))).result.isOk = true := by
  have hfiles : Path.set [⟨"a.gml"⟩] = [⟨"a.gml"⟩] := by decide +kernel
  have hcascade := @cascade_hp hpEngine rfl
  simp only [finish, prepareReload, verify, ApplyResult.paths, List.map_cons, List.map_nil, hfiles,
    inspectAll, Engine.inspect, read_hpDisk, Inquiry.result_bind, hcascade]
  decide +kernel

/-- The command for one rename carries it out. -/
theorem run_apply_hp : ∃ outcome : RenameOutcome,
    run (hpInvocation.withCommand (.apply "proj/var/hp" "life" false)) (hpTree "é hp = hp;") =
      (.ok outcome.toJson, hpTree "é life = life;") := by
  obtain ⟨outcome, hfinish⟩ := Except.isOk_iff.mp finish_hpDisk
  have hexecute := execute_eq_ok.mpr ⟨_, _, _, prepared_hpEngine, run_hpDisk, hfinish⟩
  have hrequest : parseRequest "proj/var/hp" "life" = .ok ⟨hp, "life"⟩ :=
    Except.toOption_eq_some.mp (by decide)
  refine ⟨outcome, ?_⟩
  -- The command does no more than to read its arguments and to carry out the rename.
  rw [run, openEngine_withCommand, openEngine_hpTree]
  simp only [Invocation.withCommand, Command.run, hrequest, written_eq]
  rw [show ({ root := hpInvocation.root, tree := hpTree "é hp = hp;" } : Disk) =
    hpDisk "é hp = hp;" from rfl, hexecute]
  rfl

/-- A symbol is renamed by the command for several renames as it is by the command for one. Both
    fail with the same error, or the result of the one is that of the other, and in either case
    they leave the same files. The manifest has to spell each file one way, the new name must not
    contain an equality sign, and must not be the name that the symbol has. -/
theorem run_batch_of_one (inv : Invocation) (tree : FileTree) (symbol newName : String)
    (dryRun : Bool) (hpair : '=' ∉ newName.toList)
    (hne : ∀ id, SymbolId.parse symbol = .ok id → newName ≠ id.name)
    (hspelled : ∀ index, ManifestIndex.load inv.manifest (tree.readText inv.manifest) = .ok index →
      index.SpellsOneWay) :
    (∃ err tree',
      run (inv.withCommand (.apply symbol newName dryRun)) tree = (.error err, tree') ∧
      run (inv.withCommand (.batch [symbol ++ "=" ++ newName] true dryRun)) tree =
        (.error err, tree')) ∨
    ∃ (outcome : RenameOutcome) (tree' : FileTree),
      run (inv.withCommand (.apply symbol newName dryRun)) tree = (.ok outcome.toJson, tree') ∧
      run (inv.withCommand (.batch [symbol ++ "=" ++ newName] true dryRun)) tree =
        (.ok outcome.asBatch.toJson, tree') := by
  unfold run
  rw [openEngine_withCommand, openEngine_withCommand]
  cases hengine : openEngine inv tree with
  -- Without an engine both commands end at once.
  | error err => exact .inl ⟨err, tree, rfl, rfl⟩
  | ok e =>
    obtain ⟨index, hindex, hanalyzer, -⟩ := openEngine_eq_ok hengine
    simp only [Invocation.withCommand, Command.run, parsePairs_append symbol hpair]
    cases hrequest : parseRequest symbol newName with
    | error err => exact .inl ⟨err, tree, rfl, rfl⟩
    | ok r =>
      obtain ⟨hid, rfl⟩ := parseRequest_eq_ok hrequest
      -- From here on the two commands work differently; on the level of the engine they agree.
      have hbatch := Engine.executeBatch_singleton (e := e) (hne _ hid)
        (fun occurrences hocc => (hspelled index hindex).occurrences (hanalyzer ▸ hocc)) dryRun
        ({ root := inv.root, tree } : Disk)
      simp only [Except.map, if_true, written_eq, hbatch]
      rcases (e.execute r dryRun ({ root := inv.root, tree } : Disk)).answer with
        ⟨err | outcome, disk⟩
      · exact .inl ⟨.rename err, disk.tree, rfl, rfl⟩
      · exact .inr ⟨outcome, disk.tree, rfl, rfl⟩

/-- The two commands on the project with the variable. -/
theorem run_batch_of_one_hp :
    '=' ∉ "life".toList ∧
    (∀ id, SymbolId.parse "proj/var/hp" = .ok id → "life" ≠ id.name) ∧
    (∀ index, ManifestIndex.load hpInvocation.manifest
      ((hpTree "é hp = hp;").readText hpInvocation.manifest) = .ok index → index.SpellsOneWay) ∧
    ∃ outcome : RenameOutcome,
      run (hpInvocation.withCommand (.apply "proj/var/hp" "life" false)) (hpTree "é hp = hp;") =
        (.ok outcome.toJson, hpTree "é life = life;") ∧
      run (hpInvocation.withCommand (.batch ["proj/var/hp" ++ "=" ++ "life"] true false))
          (hpTree "é hp = hp;") =
        (.ok outcome.asBatch.toJson, hpTree "é life = life;") := by
  have hpair : '=' ∉ "life".toList := by decide
  have hne : ∀ id, SymbolId.parse "proj/var/hp" = .ok id → "life" ≠ id.name := by
    intro id hid
    have hparse : SymbolId.parse "proj/var/hp" = .ok hp :=
      Except.toOption_eq_some.mp (by decide)
    cases hparse.symm.trans hid
    decide
  have hspelled : ∀ index, ManifestIndex.load hpInvocation.manifest
      ((hpTree "é hp = hp;").readText hpInvocation.manifest) = .ok index → index.SpellsOneWay := by
    intro index hindex
    cases (load_hpTree _).symm.trans hindex
    -- The manifest names one path only, so there is nothing to spell in two ways.
    have hpaths : ∀ p ∈ hpIndex.occurrences.flatMap (fun entry => entry.2.map Occurrence.path),
        p = ⟨"a.gml"⟩ := by decide
    exact fun p hp q hq _ => (hpaths p hp).trans (hpaths q hq).symm
  refine ⟨hpair, hne, hspelled, ?_⟩
  obtain ⟨outcome, hsingle⟩ := run_apply_hp
  rcases run_batch_of_one hpInvocation (hpTree "é hp = hp;") "proj/var/hp" "life" false hpair hne
    hspelled with ⟨err, tree', hfail, -⟩ | ⟨outcome', tree', happly, hbatch⟩
  · exact nomatch (Prod.mk.inj (hsingle.symm.trans hfail)).1
  · obtain ⟨-, rfl⟩ := Prod.mk.inj (hsingle.symm.trans happly)
    exact ⟨outcome', happly, hbatch⟩

end CommandLine
end HotRename
