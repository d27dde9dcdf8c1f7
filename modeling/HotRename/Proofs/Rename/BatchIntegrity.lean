import HotRename.Proofs.Rename.ExecuteBatch
import HotRename.Proofs.Rename.Integrity
import HotRename.Proofs.Store.ReadBack

/-!
# What the checks of a batch find

The renames of a batch are written together and then checked one by one. So the check of a rename
sees the new names that the other renames have put into its files. Where a symbol gets the name
that another symbol had, in a file in which both occur, the name is found again and taken for one
that was left over, although every word was replaced as it should be. Otherwise the check of a
rename whose occurrences are the words of its old name has nothing to find. Main statements:

* `executeBatch_eq_ok`   a batch goes through when each of its parts does
* `written_words`        the old and the new name in a file after the batch
* `executeBatch_checks`  which renames of a batch pass their checks
-/

namespace HotRename

open Text

/-- The occurrences that an analyzer reports of a symbol. -/
def Analyzer.reported (a : Analyzer) (id : SymbolId) : List Occurrence :=
  match a.occurrences id with
  | .ok occurrences => occurrences
  | .error _ => []

namespace Disk

/-- One of the occurrences is in the file at the location. -/
def OccursAt (d : Disk) (occurrences : List Occurrence) (loc : Location) : Prop :=
  ∃ o ∈ occurrences, d.location? o.path = some loc

/-- In every file that an occurrence names, the spans of the occurrences are those where the name
    stands outside comments as a whole word. -/
def OccursAsWords (words : WordClass) (d : Disk) (name : String) (occurrences : List Occurrence) :
    Prop :=
  ∀ loc text, d.OccursAt occurrences loc → d.tree.Holds loc text → ∀ start stop,
    (∃ o ∈ occurrences, d.location? o.path = some loc ∧ o.start = start ∧ o.stop = stop) ↔
      IsWordAt words name.toList (maskComments text.toList) start ∧
        stop = start + byteLength name.toList

/-- Where both kinds of occurrences are in one file, they name it by one path. -/
def NamedOneWay (d : Disk) (occurrences others : List Occurrence) : Prop :=
  ∀ o ∈ occurrences, ∀ o' ∈ others, ∀ loc, d.location? o.path = some loc →
    d.location? o'.path = some loc → o.path.same o'.path = true

end Disk

namespace Analyzer

/-- The renames replace words: the names are words, and each symbol occurs where its old name
    stands outside comments as a whole word. -/
structure RenameWords (words : WordClass) (a : Analyzer) (d : Disk) (renames : List RenameRequest) :
    Prop where
  new : ∀ r ∈ renames, Word words r.newName.toList
  old : ∀ r ∈ renames, Word words r.oldName.toList
  occurs : ∀ r ∈ renames, d.OccursAsWords words r.oldName (a.reported r.symbolId)

/-- The files in which the symbol of a rename occurs are named by one path each in the batch. -/
def OnePathFor (a : Analyzer) (d : Disk) (renames : List RenameRequest) (r : RenameRequest) :
    Prop :=
  ∀ r' ∈ renames, d.NamedOneWay (a.reported r.symbolId) (a.reported r'.symbolId)

/-- What the check of a rename in a batch says. It passes if every path under which its files are
    checked can be read, and no symbol of the batch that occurs in one of them gets the old name;
    this is known if its files are named by one path each. -/
structure ChecksExactly (a : Analyzer) (d : Disk) (renames : List RenameRequest)
    (r : RenameRequest) (check : RenameCheck) : Prop where
  symbolId : check.symbolId = r.symbolId
  valid_iff : check.report.valid = true ↔ check.report.errors = []
  passes_iff : a.OnePathFor d renames r →
    (check.report.errors = [] ↔
      (∀ p ∈ Path.set ((a.reported r.symbolId).map Occurrence.path),
        ∃ text, d.read p = .ok text) ∧
      ∀ r' ∈ renames, r'.newName = r.oldName →
        ∀ loc, d.OccursAt (a.reported r.symbolId) loc → ¬ d.OccursAt (a.reported r'.symbolId) loc)

end Analyzer

/-- Two lists that are linked through a third one. -/
theorem forall₂_of_links {α β γ : Type} {R : α → β → Prop} {S : β → γ → Prop} {T : α → γ → Prop}
    {as : List α} {bs : List β} {cs : List γ} (h : List.Forall₂ R as bs)
    (h' : List.Forall₂ S bs cs) (hlink : ∀ a ∈ as, ∀ b c, R a b → S b c → T a c) :
    List.Forall₂ T as cs := by
  induction h generalizing cs with
  | nil =>
    cases h'
    exact .nil
  | @cons a b as bs hab _ ih =>
    cases h' with
    | cons hbc hrest =>
      exact .cons (hlink a List.mem_cons_self b _ hab hbc)
        (ih hrest fun a' ha' => hlink a' (List.mem_cons_of_mem _ ha'))

namespace Engine

variable {e : Engine} {renames : List RenameRequest} {plans : List RenamePlan} {d d' : Disk}

/-! ## The parts of a batch -/

/-- A batch goes through when each of its parts does. -/
theorem executeBatch_eq_ok {σ : Type} [Store σ] {s s' : σ} {outcome : BatchOutcome}
    (h : (e.executeBatch renames false s).answer = (.ok outcome, s')) :
    ∃ plan validation applied, e.preparedBatch renames = .ok (plan, validation) ∧
      Apply.run plan.edit false s = (.ok applied, s') ∧
      (e.finishBatch renames plan validation applied (Store.read s')).result = .ok outcome := by
  rw [executeBatch_answer] at h
  -- The batch is prepared, then applied, then checked; each may fail.
  rcases hprepared : e.preparedBatch renames with err | ⟨plan, validation⟩
  · rw [hprepared] at h
    cases h
  · simp only [hprepared] at h
    rcases hrun : Apply.run plan.edit false s with ⟨err | applied, s₁⟩
    · simp only [hrun] at h
      cases h
    · simp only [hrun] at h
      obtain ⟨hfinish, rfl⟩ := Prod.mk.inj h
      exact ⟨plan, validation, applied, rfl, hrun, hfinish⟩

/-- Each plan of a batch is checked on its own. -/
theorem verifyEach_eq_ok {read : Path → Except StorageError String} {checks : List RenameCheck}
    (h : (e.verifyEach read plans).result = .ok checks) :
    List.Forall₂ (fun plan check => check.symbolId = plan.symbolId ∧
      (e.verify plan.symbolId plan.newName plan.edit.files read).result = .ok check.report)
      plans checks := by
  induction plans generalizing checks with
  | nil =>
    cases h
    exact .nil
  | cons plan plans ih =>
    simp only [verifyEach, Inquiry.result_bind, Inquiry.result_pure, Except.bind_eq_ok,
      Except.ok.injEq] at h
    obtain ⟨report, hreport, rest, hrest, rfl⟩ := h
    exact .cons ⟨rfl, hreport⟩ (ih hrest)

/-- A plan answers its request by an edit of the reported occurrences. -/
theorem Planned.parts {r : RenameRequest} {plan : RenamePlan} (h : e.Planned r plan) :
    plan.request = r ∧ plan.edit = renameEdit r.newName (e.analyzer.reported r.symbolId) := by
  obtain ⟨-, -, -, occurrences, hocc, -, rfl⟩ := plan_eq_ok.mp h
  have hreported : e.analyzer.reported r.symbolId = occurrences := by
    unfold Analyzer.reported
    rcases Answer.orDefault_eq_ok.mp hocc with hocc | ⟨⟨c, hmissing⟩, rfl⟩
    · rw [hocc]
    · rw [hmissing]
  rw [hreported]
  exact ⟨rfl, rfl⟩

/-- The edits of a batch put the new names in the places of the occurrences. -/
theorem mem_mergedEdit (hplans : List.Forall₂ e.Planned renames plans) {a : TextEdit} :
    a ∈ (Batch.mergedEdit plans).edits ↔
      ∃ r ∈ renames, ∃ o ∈ e.analyzer.reported r.symbolId,
        a = { path := o.path, start := o.start, stop := o.stop, newText := r.newName } := by
  induction hplans with
  | nil => simp [Batch.mergedEdit]
  | @cons r plan rs plans hplan _ ih =>
    -- The edits of the first plan come first.
    have hedits : (Batch.mergedEdit (plan :: plans)).edits =
        plan.edit.edits ++ (Batch.mergedEdit plans).edits := rfl
    rw [hedits, List.mem_append, ih, hplan.parts.2]
    simp only [renameEdit, List.mem_map, List.mem_cons, exists_eq_or_imp, @eq_comm _ a]

/-! ## A file after a batch -/

/-- After a batch of renames of words, a file in which a symbol occurs has its new name, and has its
    old name exactly if a symbol that occurs there as well has got it. -/
theorem written_words {path : Path} {loc : Location} {old new : String} {r : RenameRequest}
    {o : Occurrence} (hplans : List.Forall₂ e.Planned renames plans)
    (hwords : e.analyzer.RenameWords e.words d renames) (hr : r ∈ renames)
    (hone : e.analyzer.OnePathFor d renames r)
    (ho : o ∈ e.analyzer.reported r.symbolId) (hloc : d.location? o.path = some loc)
    (hholds : d.tree.Holds loc old)
    (h : Splice.apply path old
      (TextEdit.sortTailFirst ((Batch.mergedEdit plans).editsFor o.path)) = .ok new) :
    ((∃ n, IsWordAt e.words r.oldName.toList (maskComments new.toList) n) ↔
      ∃ r' ∈ renames, r'.newName = r.oldName ∧
        d.OccursAt (e.analyzer.reported r'.symbolId) loc) ∧
      ∃ n, IsWordAt e.words r.newName.toList new.toList n := by
  -- The edits to the file are those of the occurrences at its location.
  have hmem : ∀ a, a ∈ TextEdit.sortTailFirst ((Batch.mergedEdit plans).editsFor o.path) ↔
      ∃ r' ∈ renames, ∃ o' ∈ e.analyzer.reported r'.symbolId, d.location? o'.path = some loc ∧
        a = { path := o'.path, start := o'.start, stop := o'.stop, newText := r'.newName } := by
    intro a
    rw [(TextEdit.sortTailFirst_perm _).mem_iff, WorkspaceEdit.editsFor, List.mem_filter,
      mem_mergedEdit hplans]
    constructor
    · rintro ⟨⟨r', hr', o', ho', rfl⟩, hsame⟩
      exact ⟨r', hr', o', ho', (Disk.location?_congr hsame).symm.trans hloc, rfl⟩
    · rintro ⟨r', hr', o', ho', hloc', rfl⟩
      exact ⟨⟨r', hr', o', ho', rfl⟩, hone r' hr' o ho o' ho' loc hloc hloc'⟩
  have hedits : ∀ a ∈ TextEdit.sortTailFirst ((Batch.mergedEdit plans).editsFor o.path),
      a.RenamesWord e.words old.toList := by
    intro a ha
    obtain ⟨r', hr', o', ho', hloc', rfl⟩ := (hmem a).mp ha
    obtain ⟨hword, hstop⟩ := (hwords.occurs r' hr' loc old ⟨o', ho', hloc'⟩ hholds _ _).mp
      ⟨o', ho', hloc', rfl, rfl⟩
    exact ⟨hwords.new r' hr', r'.oldName.toList, hwords.old r' hr', hstop, hword⟩
  -- Every word of the old name is the place of an occurrence.
  have hall : ∀ n, IsWordAt e.words r.oldName.toList (maskComments old.toList) n →
      ∃ a ∈ TextEdit.sortTailFirst ((Batch.mergedEdit plans).editsFor o.path), a.start = n := by
    intro n hword
    obtain ⟨o', ho', hloc', hstart, -⟩ :=
      (hwords.occurs r hr loc old ⟨o, ho, hloc⟩ hholds n _).mpr ⟨hword, rfl⟩
    exact ⟨_, (hmem _).mpr ⟨r, hr, o', ho', hloc', rfl⟩, hstart⟩
  constructor
  · rw [Splice.apply_word_replaced (hwords.old r hr) hedits hall h]
    constructor
    · rintro ⟨a, ha, hname⟩
      obtain ⟨r', hr', o', ho', hloc', rfl⟩ := (hmem a).mp ha
      exact ⟨r', hr', String.toList_inj.mp hname, o', ho', hloc'⟩
    · rintro ⟨r', hr', hname, o', ho', hloc'⟩
      exact ⟨_, (hmem _).mpr ⟨r', hr', o', ho', hloc', rfl⟩, by rw [hname]⟩
  · exact Splice.exists_word_of_edit hedits ⟨_, (hmem _).mpr ⟨r, hr, o, ho, hloc, rfl⟩, rfl⟩ h

/-- Nothing is found in a file of a rename if it can be read under its path, and no symbol that
    occurs there has got the old name. -/
theorem inspect_batch {applied : ApplyResult} {r : RenameRequest} {o : Occurrence}
    (hparses : e.ParsesAll) (hplans : List.Forall₂ e.Planned renames plans)
    (hwords : e.analyzer.RenameWords e.words d renames)
    (hrun : Apply.run (Batch.mergedEdit plans) false d = (.ok applied, d'))
    (hr : r ∈ renames) (hone : e.analyzer.OnePathFor d renames r)
    (ho : o ∈ e.analyzer.reported r.symbolId) :
    ∃ loc, d.location? o.path = some loc ∧
      ((e.inspect r.oldName r.newName (Store.read d') o.path).answer.2 = [] ↔
        (∃ text, d.read o.path = .ok text) ∧ ∀ r' ∈ renames, r'.newName = r.oldName →
          ¬ d.OccursAt (e.analyzer.reported r'.symbolId) loc) := by
  have htouches : (Batch.mergedEdit plans).touches o.path = true :=
    List.any_eq_true.mpr ⟨_, (mem_mergedEdit hplans).mpr ⟨r, hr, o, ho, rfl⟩, Path.same_self _⟩
  -- The file is edited under one path, so all its edits are known.
  have honly : Apply.OnlyPath (Batch.mergedEdit plans) d o.path := by
    intro a ha loc hloc hloc'
    obtain ⟨r', hr', o', ho', rfl⟩ := (mem_mergedEdit hplans).mp ha
    exact hone r' hr' o ho o' ho' loc hloc hloc'
  obtain ⟨loc, old, new, path, hloc, hholds, hsplice, hread⟩ := Apply.run_read hrun htouches honly
  obtain ⟨hgone, hthere⟩ := written_words hplans hwords hr hone ho hloc hholds hsplice
  refine ⟨loc, hloc, ?_⟩
  rw [inspect_eq_nil_iff hparses]
  change (∃ text, d'.read o.path = .ok text ∧ _) ↔ _
  simp only [hread]
  constructor
  · rintro ⟨_, ⟨rfl, hbefore⟩, hfree, -⟩
    refine ⟨hbefore, fun r' hr' hname hoccurs => ?_⟩
    obtain ⟨n, hn⟩ := hgone.mpr ⟨r', hr', hname, hoccurs⟩
    exact hfree n hn
  · rintro ⟨hbefore, hfree⟩
    refine ⟨new, ⟨rfl, hbefore⟩, fun n hn => ?_, hthere⟩
    obtain ⟨r', hr', hname, hoccurs⟩ := hgone.mp ⟨n, hn⟩
    exact hfree r' hr' hname hoccurs

/-! ## The checks of a batch -/

/-- What is verified for one rename of a batch. -/
theorem checksExactly_of_verify {applied : ApplyResult} {r : RenameRequest} {plan : RenamePlan}
    {check : RenameCheck} (hparses : e.ParsesAll)
    (hplans : List.Forall₂ e.Planned renames plans)
    (hwords : e.analyzer.RenameWords e.words d renames)
    (hrun : Apply.run (Batch.mergedEdit plans) false d = (.ok applied, d'))
    (hr : r ∈ renames) (hplan : e.Planned r plan) (hid : check.symbolId = plan.symbolId)
    (h : (e.verify plan.symbolId plan.newName plan.edit.files (Store.read d')).result =
      .ok check.report) : e.analyzer.ChecksExactly d renames r check := by
  obtain ⟨rfl, hedit⟩ := hplan.parts
  obtain ⟨hvalid, herrors, -⟩ := verify_report h
  have hfiles : plan.edit.files =
      Path.set ((e.analyzer.reported plan.symbolId).map Occurrence.path) := by
    rw [hedit, WorkspaceEdit.files, renameEdit, List.map_map]
    rfl
  refine ⟨hid, by rw [hvalid, List.isEmpty_iff], fun hone => ?_⟩
  rw [herrors, hfiles]
  simp only [Path.mem_set_set]
  have hfile : ∀ o ∈ e.analyzer.reported plan.symbolId, _ := fun o ho =>
    inspect_batch hparses hplans hwords hrun hr hone ho
  constructor
  · intro hclean
    refine ⟨fun p hp => ?_, ?_⟩
    · obtain ⟨o, ho, rfl⟩ := List.mem_map.mp (Path.mem_of_mem_set hp)
      obtain ⟨loc, -, hinspect⟩ := hfile o ho
      exact (hinspect.mp (hclean _ hp)).1
    · -- The file of an occurrence is checked under the spelling that is kept of its path.
      rintro r' hr' hname loc ⟨o, ho, hloc⟩
      have hany : (Path.set ((e.analyzer.reported plan.symbolId).map Occurrence.path)).any
          o.path.same = true := by
        rw [Path.any_same_set]
        exact List.any_eq_true.mpr ⟨o.path, List.mem_map_of_mem ho, Path.same_self _⟩
      obtain ⟨p, hp, hsame⟩ := List.any_eq_true.mp hany
      obtain ⟨o', ho', rfl⟩ := List.mem_map.mp (Path.mem_of_mem_set hp)
      obtain ⟨loc', hloc', hinspect⟩ := hfile o' ho'
      cases hloc.symm.trans ((Disk.location?_congr hsame).trans hloc')
      exact (hinspect.mp (hclean _ hp)).2 r' hr' hname
  · rintro ⟨hread, hfree⟩ p hp
    obtain ⟨o, ho, rfl⟩ := List.mem_map.mp (Path.mem_of_mem_set hp)
    obtain ⟨loc, hloc, hinspect⟩ := hfile o ho
    exact hinspect.mpr ⟨hread _ hp, fun r' hr' hname => hfree r' hr' hname loc ⟨o, ho, hloc⟩⟩

/-- Every rename of a batch that replaces words is checked, and passes unless its old name is put
    into one of its files by another rename. -/
theorem executeBatch_checks {outcome : BatchOutcome} (hparses : e.ParsesAll)
    (hold : ∀ r ∈ renames, Identifier.isName r.oldName.toList = true)
    (hwords : ∀ r ∈ renames, d.OccursAsWords e.words r.oldName (e.analyzer.reported r.symbolId))
    (h : (e.executeBatch renames false d).answer = (.ok outcome, d')) :
    ∃ checks, outcome.integrity = some checks ∧
      List.Forall₂ (e.analyzer.ChecksExactly d renames) renames checks := by
  obtain ⟨plan, validation, applied, hprepared, hrun, hfinish⟩ := executeBatch_eq_ok h
  obtain ⟨_, hplan, hprepared⟩ := Except.bind_eq_ok.mp hprepared
  obtain ⟨_, -, hprepared⟩ := Except.bind_eq_ok.mp hprepared
  cases hprepared
  obtain ⟨hconsistent, hplans, hedit, -⟩ := planBatch_eq_ok_iff.mp hplan
  -- The edit that was written is the one merged from the plans.
  rw [hedit] at hrun
  have hwords : e.analyzer.RenameWords e.words d renames :=
    ⟨fun r hr => Identifier.word_of_isName e.words (hconsistent.names r hr),
      fun r hr => Identifier.word_of_isName e.words (hold r hr), hwords⟩
  simp only [finishBatch, Inquiry.result_bind, Inquiry.result_pure, Except.bind_eq_ok,
    Except.ok.injEq] at hfinish
  obtain ⟨checks, hchecks, reload, -, rfl⟩ := hfinish
  refine ⟨checks, rfl, forall₂_of_links hplans (verifyEach_eq_ok hchecks) ?_⟩
  rintro r hr plan check hplanned ⟨hid, hverify⟩
  exact checksExactly_of_verify hparses hplans hwords hrun hr hplanned hid hverify

end Engine
end HotRename
