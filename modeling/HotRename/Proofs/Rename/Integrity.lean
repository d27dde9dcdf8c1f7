import HotRename.Proofs.Edit.Disjoint
import HotRename.Proofs.Edit.Words
import HotRename.Proofs.Rename.Execute
import HotRename.Proofs.Symbol.Identifier

/-!
# A rename passes its own check

The files of a rename are checked as plain text, whatever the analyzer said about them. If the
analyzer reports the words of the old name outside comments and nothing else, the check has nothing
to find: no such word is left, and the new name stands in every file. Main statements:

* `run_splice`            what an edited file holds afterwards
* `verify_clean`          the report about files in which nothing is found
* `execute_ok_integrity`  the report about a rename
-/

namespace HotRename

open Text

variable {words : WordClass}

/-! ## What is found in a file -/

namespace Integrity

/-- No leftover is found exactly if the old name is not a word outside comments. -/
theorem leftover_eq_nil_iff {path : Path} {oldName text : String} :
    leftover words path oldName text = [] ↔
      ∀ n, ¬ IsWordAt words oldName.toList (maskComments text.toList) n := by
  rw [← findWord_eq_none_iff, leftover]
  split <;> simp_all

/-- The new name is not missed exactly if it is a word of the text. -/
theorem absent_eq_nil_iff {path : Path} {newName text : String} :
    absent words path newName text = [] ↔ ∃ n, IsWordAt words newName.toList text.toList n := by
  rw [← hasWord_iff, absent]
  split <;> simp_all

end Integrity

namespace Engine

variable {e : Engine}

/-- The parser is not asked, or it is missing, or it takes every file. -/
def ParsesAll (e : Engine) : Prop :=
  e.config.verifySyntax = true → ∀ p, ∃ tree, (e.parser.parse p).supported = .ok tree

/-- A parser that takes every file finds no error. -/
theorem parseErrors_eq_nil (h : e.ParsesAll) (p : Path) : (e.parseErrors p).answer = [] := by
  unfold parseErrors
  split
  · rename_i hverify
    obtain ⟨tree, htree⟩ := h hverify p
    rw [Asked.answer_bind, Asked.answer_ask, htree]
    rfl
  · rfl

/-- Nothing is found in a file if it can be read, is without the old name and has the new one. -/
theorem inspect_eq_nil_iff (hparses : e.ParsesAll) {oldName newName : String} {p : Path}
    {read : Path → Except StorageError String} :
    (e.inspect oldName newName read p).answer.2 = [] ↔
      ∃ text, read p = .ok text ∧
        (∀ n, ¬ IsWordAt e.words oldName.toList (maskComments text.toList) n) ∧
        ∃ n, IsWordAt e.words newName.toList text.toList n := by
  unfold Engine.inspect
  cases read p with
  -- A file that cannot be read is an error itself.
  | error err => simp
  | ok text =>
    simp only [Asked.answer_bind, Asked.answer_pure, parseErrors_eq_nil hparses, List.append_nil,
      List.append_eq_nil_iff, Integrity.leftover_eq_nil_iff, Integrity.absent_eq_nil_iff,
      Except.ok.injEq, exists_eq_left']

/-- A text without the old name and with the new one is clean. -/
theorem inspect_clean (hparses : e.ParsesAll) {oldName newName text : String} {p : Path}
    {read : Path → Except StorageError String} (hread : read p = .ok text)
    (hgone : ∀ n, ¬ IsWordAt e.words oldName.toList (maskComments text.toList) n)
    (hthere : ∃ n, IsWordAt e.words newName.toList text.toList n) :
    (e.inspect oldName newName read p).answer.2 = [] :=
  (inspect_eq_nil_iff hparses).mpr ⟨text, hread, hgone, hthere⟩

/-- The files are inspected one by one. -/
theorem inspectAll_answer (oldName newName : String)
    (read : Path → Except StorageError String) (ps : List Path) :
    (e.inspectAll oldName newName read ps).answer =
      ps.map fun p => (e.inspect oldName newName read p).answer := by
  induction ps with
  | nil => rfl
  | cons p ps ih =>
    simp only [inspectAll, Asked.answer_bind, Asked.answer_pure, ih, List.map_cons]

/-- A file counts as checked exactly if it can be read. -/
theorem inspect_fst {oldName newName : String} {read : Path → Except StorageError String}
    (p : Path) : (e.inspect oldName newName read p).answer.1 = (read p).isOk := by
  unfold Engine.inspect
  cases read p <;> rfl

/-- A file in which nothing is found was read. -/
theorem isOk_of_inspect_eq_nil {oldName newName : String} {p : Path}
    {read : Path → Except StorageError String}
    (h : (e.inspect oldName newName read p).answer.2 = []) : (read p).isOk = true := by
  unfold Engine.inspect at h
  cases hread : read p with
  | ok text => rfl
  | error err => simp [hread] at h

/-- A report is valid if it has no errors, and has none if nothing is found in any file. It counts
    the files that could be read. -/
theorem verify_report {id : SymbolId} {newName : String} {edited : List Path}
    {read : Path → Except StorageError String} {report : IntegrityReport}
    (h : (e.verify id newName edited read).result = .ok report) :
    report.valid = report.errors.isEmpty ∧
      (report.errors = [] ↔
        ∀ p ∈ Path.set edited, (e.inspect id.name newName read p).answer.2 = []) ∧
      report.filesChecked = (Path.set edited).countP fun p => (read p).isOk := by
  simp only [verify, Inquiry.result_bind, Inquiry.result_lift, Inquiry.result_pure,
    inspectAll_answer, Except.bind_eq_ok, Except.ok.injEq] at h
  -- The names were found searchable, and the warnings do not count as errors.
  obtain ⟨_, -, _, -, _, rfl, warnings, -, rfl⟩ := h
  refine ⟨rfl, ?_, ?_⟩
  · rw [List.flatMap_eq_nil_iff, List.forall_mem_map]
  · simp only [List.countP_map, Function.comp_def, inspect_fst]

/-- The report about files in which nothing is found has no errors, and counts all of them. -/
theorem verify_clean {id : SymbolId} {newName : String} {edited : List Path}
    {read : Path → Except StorageError String} {report : IntegrityReport}
    (hclean : ∀ p ∈ edited, (e.inspect id.name newName read p).answer.2 = [])
    (h : (e.verify id newName edited read).result = .ok report) :
    report.valid = true ∧ report.errors = [] ∧
      report.filesChecked = (Path.set edited).length := by
  obtain ⟨hvalid, herrors, hchecked⟩ := verify_report h
  have hclean : ∀ p ∈ Path.set edited, (e.inspect id.name newName read p).answer.2 = [] :=
    fun p hp => hclean p (Path.mem_of_mem_set hp)
  refine ⟨?_, herrors.mpr hclean, ?_⟩
  · rw [hvalid, herrors.mpr hclean]
    rfl
  · rw [hchecked, List.countP_eq_length]
    exact fun p hp => isOk_of_inspect_eq_nil (hclean p hp)

end Engine

/-! ## What is written -/

/-- An edited file holds the splice of its edits into the text that it held before. -/
theorem Apply.run_splice {edit : WorkspaceEdit} {s s' : MemoryStore} {result : ApplyResult}
    (h : run edit false s = (.ok result, s')) {p : Path} (hp : edit.touches p = true) :
    ∃ old new, s.content? p = some old ∧ s'.content? p = some new ∧
      ∃ path, Splice.apply path old (TextEdit.sortTailFirst (edit.editsFor p)) = .ok new := by
  have hcontent := (run_ok h).2 p hp
  obtain ⟨hcompute, -⟩ := run_eq_ok h
  obtain ⟨hkeys, -⟩ := compute_ok hcompute
  have hasc := edit.groupKeys_pairwise
  rw [← hkeys] at hasc
  -- The file under the spelling of its group.
  rw [WorkspaceEdit.touches_eq_any_groupKeys] at hp
  obtain ⟨q, hq, hsame⟩ := List.any_eq_true.mp hp
  obtain ⟨-, hsplices⟩ := Except.unit_bind_eq_ok.mp hcompute
  obtain ⟨⟨_, new⟩, hfile, hpath, old, hread, hsplice⟩ :=
    exists_of_forall₂ (spliceAll_eq_ok_iff.mp hsplices) (List.mem_map.mpr ⟨q, hq, rfl⟩)
  cases hpath
  refine ⟨old, new, ?_, ?_, q, ?_⟩
  · rw [MemoryStore.content?_eq_textAt, Path.same_eq_true.mp hsame]
    exact MemoryStore.read_eq_ok_iff.mp hread
  · rw [hcontent]
    exact Path.find?_eq_some hasc hfile hsame
  · rw [edit.editsFor_congr hsame]
    exact hsplice

/-! ## A rename of words -/

/-- In every file that an occurrence names, the spans of the occurrences are those where the name
    stands outside comments as a whole word. -/
def MemoryStore.OccursAsWords (words : WordClass) (s : MemoryStore) (name : String)
    (occurrences : List Occurrence) : Prop :=
  ∀ f text, (∃ o ∈ occurrences, f.same o.path = true) → s.content? f = some text →
    ∀ start stop,
      (∃ o ∈ occurrences, f.same o.path = true ∧ o.start = start ∧ o.stop = stop) ↔
        IsWordAt words name.toList (maskComments text.toList) start ∧
          stop = start + byteLength name.toList

namespace Engine

variable {e : Engine}

/-- The edits of a file are those of its occurrences. -/
theorem mem_editsFor_renameEdit {newName : String} {occurrences : List Occurrence} {f : Path}
    {edit : TextEdit} :
    edit ∈ (renameEdit newName occurrences).editsFor f ↔
      ∃ o ∈ occurrences, f.same o.path = true ∧
        edit = { path := o.path, start := o.start, stop := o.stop, newText := newName } := by
  simp only [editsFor_renameEdit, List.mem_map, List.mem_filter, and_assoc, eq_comm]

/-- When the words of the old name are replaced in a file, none is left, and the new name stands
    there. -/
theorem splice_words {oldName newName text out : String} {occurrences : List Occurrence}
    {f path : Path} (hold : Word words oldName.toList) (hnew : Word words newName.toList)
    (hne : newName ≠ oldName) (hf : ∃ o ∈ occurrences, f.same o.path = true)
    (hwords : ∀ start stop,
      (∃ o ∈ occurrences, f.same o.path = true ∧ o.start = start ∧ o.stop = stop) ↔
        IsWordAt words oldName.toList (maskComments text.toList) start ∧
          stop = start + byteLength oldName.toList)
    (h : Splice.apply path text
      (TextEdit.sortTailFirst ((renameEdit newName occurrences).editsFor f)) = .ok out) :
    (∀ n, ¬ IsWordAt words oldName.toList (maskComments out.toList) n) ∧
      ∃ n, IsWordAt words newName.toList out.toList n := by
  -- The edits are made from the occurrences in the file.
  have hmem : ∀ edit, edit ∈ TextEdit.sortTailFirst ((renameEdit newName occurrences).editsFor f) ↔
      ∃ o ∈ occurrences, f.same o.path = true ∧
        edit = { path := o.path, start := o.start, stop := o.stop, newText := newName } := by
    intro edit
    rw [(TextEdit.sortTailFirst_perm _).mem_iff, mem_editsFor_renameEdit]
  have hedits : ∀ edit ∈ TextEdit.sortTailFirst ((renameEdit newName occurrences).editsFor f),
      edit.RenamesWord words text.toList := by
    intro edit hedit
    obtain ⟨o, ho, hpath, rfl⟩ := (hmem edit).mp hedit
    obtain ⟨hword, hstop⟩ := (hwords _ _).mp ⟨o, ho, hpath, rfl, rfl⟩
    exact ⟨hnew, oldName.toList, hold, hstop, hword⟩
  have hall : ∀ n, IsWordAt words oldName.toList (maskComments text.toList) n →
      ∃ edit ∈ TextEdit.sortTailFirst ((renameEdit newName occurrences).editsFor f),
        edit.start = n := by
    intro n hword
    obtain ⟨o, ho, hpath, hstart, -⟩ := (hwords n _).mpr ⟨hword, rfl⟩
    exact ⟨_, (hmem _).mpr ⟨o, ho, hpath, rfl⟩, hstart⟩
  constructor
  · intro n hn
    obtain ⟨edit, hedit, hsame⟩ := (Splice.apply_word_replaced hold hedits hall h).mp ⟨n, hn⟩
    obtain ⟨o, -, -, rfl⟩ := (hmem edit).mp hedit
    exact hne (String.toList_inj.mp hsame)
  · obtain ⟨o, ho, hpath⟩ := hf
    exact Splice.exists_word_of_edit hedits ⟨_, (hmem _).mpr ⟨o, ho, hpath, rfl⟩, rfl⟩ h

/-! ## A variable that is named in a comment -/

/-- A project with the variable, whose name stands in a comment as well. -/
def commentedStore : MemoryStore where
  files := [(⟨"a.gml"⟩, "é hp = hp; // hp")]
  failing := []
  writes := 0

/-- The project after the variable was renamed. -/
def commentedAfter : MemoryStore where
  files := [(⟨"a.gml"⟩, "é life = life; // hp")]
  failing := []
  writes := 1

/-- The variable occurs where its name is a word, and the comment does not count. -/
theorem occursAsWords_hp : commentedStore.OccursAsWords .unicode "hp" hpOccurrences := by
  intro f text hf htext start stop
  have hsame : f.same ⟨"a.gml"⟩ = true := by
    obtain ⟨o, ho, hsame⟩ := hf
    have hpath : ∀ o ∈ hpOccurrences, o.path = ⟨"a.gml"⟩ := by decide
    rwa [hpath o ho] at hsame
  have hcontent : commentedStore.content? f = some "é hp = hp; // hp" := by
    rw [MemoryStore.content?_eq_textAt, Path.same_eq_true.mp hsame]
    decide
  cases hcontent.symm.trans htext
  -- The offsets are in bytes, and the first letter takes two of them.
  have hoffsets :
      wordOffsets .unicode "hp".toList (maskComments "é hp = hp; // hp".toList) = [3, 8] := by
    decide
  have hbytes : byteLength "hp".toList = 2 := by decide
  rw [← mem_wordOffsets, hoffsets, hbytes]
  simp only [hpOccurrences, List.mem_cons, List.not_mem_nil, or_false, exists_eq_or_imp,
    exists_eq_left, hsame, true_and]
  omega

/-- The rename leaves the comment as it is. -/
theorem run_commented :
    Apply.run (renameEdit "life" hpOccurrences) false commentedStore =
      (.ok { files := [(⟨"a.gml"⟩, "é life = life; // hp")], written := true },
        commentedAfter) :=
  Apply.run_of_oneGroup validate_hpOccurrences groups_hpOccurrences rfl
    (Splice.apply_of_tailFirst (by decide) (by decide) (by decide)) rfl

/-- The steps after the write go through. -/
theorem finish_commented : ((knowing hp hpOccurrences []).finish ⟨hp, "life"⟩ hpPlan
    { files := 1, edits := 2, warnings := [] }
    { files := [(⟨"a.gml"⟩, "é life = life; // hp")], written := true }
    (Store.read commentedAfter)).result.isOk = true := by
  have hcascade := @cascade_hp (knowing hp hpOccurrences []) rfl
  simp only [finish, prepareReload, List.map_cons, List.map_nil, Inquiry.result_bind, hcascade]
  decide +kernel

/-! ## The report -/

/-- A rename whose occurrences are the words of the old name outside comments passes its own check,
    as long as the parser does not refuse a file. Every edited file was read for it. -/
theorem execute_ok_integrity {r : RenameRequest} {s s' : MemoryStore} {outcome : RenameOutcome}
    (hname : Identifier.isName r.oldName.toList = true)
    (hwords : ∀ occurrences, e.analyzer.occurrences r.symbolId = .ok occurrences →
      s.OccursAsWords e.words r.oldName occurrences)
    (hparses : e.ParsesAll)
    (h : (e.execute r false s).answer = (.ok outcome, s')) :
    ∃ report, outcome.integrity = some report ∧ report.valid = true ∧ report.errors = [] ∧
      report.filesChecked = outcome.applied.files.length := by
  obtain ⟨plan, validation, applied, hprepared, hrun, hfinish⟩ := execute_eq_ok.mp h
  obtain ⟨occurrences, hocc, hedit⟩ := prepared_ok hprepared
  obtain ⟨hnewName, hne⟩ := names_of_prepared hprepared
  -- The check reads the files that were written, and each of them holds a splice of the renames.
  have hold := Identifier.word_of_isName e.words hname
  have hnew := Identifier.word_of_isName e.words (Identifier.validate_eq_ok_iff.mp hnewName)
  have hkeys : applied.paths = plan.edit.groupKeys :=
    (Apply.compute_ok (Apply.run_eq_ok hrun).1).1
  have hclean : ∀ p ∈ applied.paths,
      (e.inspect r.symbolId.name r.newName (Store.read s') p).answer.2 = [] := by
    intro p hp
    rw [hkeys] at hp
    have htouches := WorkspaceEdit.touches_of_mem_groupKeys hp
    obtain ⟨old, new, hbefore, hafter, path, hsplice⟩ := Apply.run_splice hrun htouches
    rw [hedit] at hsplice htouches
    rw [touches_renameEdit] at htouches
    have hf := List.any_eq_true.mp htouches
    obtain ⟨hgone, hthere⟩ := splice_words hold hnew hne hf
      (hwords occurrences hocc p old hf hbefore) hsplice
    exact inspect_clean hparses (MemoryStore.read_eq_ok_iff.mpr hafter) hgone hthere
  simp only [finish, Inquiry.result_bind, Inquiry.result_pure, Except.bind_eq_ok,
    Except.ok.injEq] at hfinish
  obtain ⟨report, hverify, reload, -, rfl⟩ := hfinish
  obtain ⟨hvalid, herrors, hchecked⟩ := verify_clean hclean hverify
  refine ⟨report, rfl, hvalid, herrors, ?_⟩
  -- The written files ascend, so none of them is left out of the set that is checked.
  have hset : Path.set applied.paths = applied.paths := by
    rw [hkeys]
    exact Path.set_of_ascending plan.edit.groupKeys_pairwise
  rw [hchecked, hset, ApplyResult.paths, List.length_map]

/-- The old name in the comment is no leftover. -/
theorem execute_ok_integrity_hp :
    Identifier.isName "hp".toList = true ∧ (knowing hp hpOccurrences []).ParsesAll ∧
    commentedStore.OccursAsWords .unicode "hp" hpOccurrences ∧
    ∃ outcome, ((knowing hp hpOccurrences []).execute ⟨hp, "life"⟩ false commentedStore).answer =
        (.ok outcome, commentedAfter) ∧
      ∃ report, outcome.integrity = some report ∧ report.valid = true ∧ report.errors = [] ∧
        report.filesChecked = outcome.applied.files.length := by
  obtain ⟨outcome, hfinish⟩ := Except.isOk_iff.mp finish_commented
  have h := execute_eq_ok.mpr ⟨_, _, _, prepared_hp (.inl rfl), run_commented, hfinish⟩
  have hname : Identifier.isName "hp".toList = true := by decide
  have hparses : (knowing hp hpOccurrences []).ParsesAll := fun _ _ => ⟨none, rfl⟩
  refine ⟨hname, hparses, occursAsWords_hp, outcome, h,
    execute_ok_integrity (r := ⟨hp, "life"⟩) hname ?_ hparses h⟩
  intro occurrences hocc
  cases hocc
  exact occursAsWords_hp

end Engine
end HotRename
