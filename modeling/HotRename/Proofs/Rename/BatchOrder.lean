import HotRename.Proofs.Edit.Disjoint
import HotRename.Proofs.Rename.Batch
import HotRename.Proofs.Rename.Execute
import Mathlib.Data.List.Perm.Basic

/-!
# The order of a batch

The requests of a batch may come in any order: the same batches are planned, with the same edits
in another order, and applying these edits in another order fails for the same stores and has the
same effect on the others. Main statements:

* `exists_compute_iff`     which edits can be computed, without the order of the edits
* `Carried.content?_eq`    what is written does not depend on the order either
* `planBatch_perm`         the plans of a batch in two orders have the same edits
* `planBatch_any_order`    planning and applying together
-/

namespace HotRename

namespace WorkspaceEdit

variable {w w' : WorkspaceEdit}

/-- The order of the edits does not matter to which files they touch. -/
theorem touches_perm (h : w.edits.Perm w'.edits) (f : Path) : w.touches f = w'.touches f := by
  rw [touches, touches, Bool.eq_iff_iff, List.any_eq_true, List.any_eq_true]
  simp only [h.mem_iff]

/-- Each file has the same edits, in some order. -/
theorem editsFor_perm (h : w.edits.Perm w'.edits) (f : Path) :
    (w.editsFor f).Perm (w'.editsFor f) :=
  h.filter _

end WorkspaceEdit

/-! ## Edits that can be computed -/

namespace Apply

/-- All files are spliced if each of them is. -/
theorem exists_spliceAll_iff {read : Path → Except StorageError String}
    {groups : List (Path × List TextEdit)} :
    (∃ files, spliceAll read groups = .ok files) ↔
      ∀ group ∈ groups, ∃ file, IsSplice read group file := by
  simp only [spliceAll_eq_ok_iff]
  induction groups with
  | nil => simp
  | cons group groups ih =>
    rw [List.forall_mem_cons, ← ih]
    simp only [List.forall₂_cons_left_iff]
    constructor
    · rintro ⟨_, file, files, hfile, hfiles, -⟩
      exact ⟨⟨file, hfile⟩, files, hfiles⟩
    · rintro ⟨⟨file, hfile⟩, files, hfiles⟩
      exact ⟨_, file, files, hfile, hfiles, rfl⟩

/-- An edit can be computed if it is valid and every edited file is there, with a text that the
    edits fit. -/
theorem exists_compute_iff {edit : WorkspaceEdit} {s : MemoryStore} :
    (∃ files, compute edit s = .ok files) ↔
      edit.validate = .ok () ∧ ∀ p, edit.touches p = true →
        ∃ old, s.content? p = some old ∧ ∀ e ∈ edit.editsFor p, Splice.Fits old.toList e := by
  simp only [compute, Except.unit_bind_eq_ok, Except.mapError_eq_ok, exists_and_left,
    exists_spliceAll_iff]
  refine and_congr_right fun hvalid => ?_
  have hdisjoint := (WorkspaceEdit.validate_eq_ok_iff.mp hvalid).2.2
  rw [← WorkspaceEdit.pairwise_editsFor_iff] at hdisjoint
  have hmem (q : Path) (e : TextEdit) :
      e ∈ TextEdit.sortTailFirst (edit.editsFor q) ↔ e ∈ edit.editsFor q :=
    (TextEdit.sortTailFirst_perm _).mem_iff
  constructor
  · intro h p hp
    -- The group of the file may spell its path in another way.
    rw [WorkspaceEdit.touches_eq_any_groupKeys] at hp
    obtain ⟨q, hq, hsame⟩ := List.any_eq_true.mp hp
    obtain ⟨file, -, old, hread, hsplice⟩ := h _ (List.mem_map.mpr ⟨q, hq, rfl⟩)
    obtain ⟨hfits, -, -⟩ := Splice.apply_eq_ok_iff.mp hsplice
    refine ⟨old, ?_, fun e he => hfits e ?_⟩
    · rw [MemoryStore.content?_eq_textAt, Path.same_eq_true.mp hsame]
      exact MemoryStore.read_eq_ok_iff.mp hread
    · rw [edit.editsFor_congr hsame] at he
      exact (hmem q e).mpr he
  · intro h group hgroup
    obtain ⟨q, hq, rfl⟩ := List.mem_map.mp hgroup
    obtain ⟨old, hold, hfits⟩ := h q (WorkspaceEdit.touches_of_mem_groupKeys hq)
    have hpairwise := ((TextEdit.sortTailFirst_perm _).pairwise_iff TextEdit.Disjoint.symm).mpr
      (hdisjoint q hq)
    obtain ⟨new, hnew⟩ : ∃ new,
        Splice.apply q old (TextEdit.sortTailFirst (edit.editsFor q)) = .ok new :=
      ⟨_, Splice.apply_eq_ok_iff.mpr ⟨fun e he => hfits e ((hmem q e).mp he), hpairwise, rfl⟩⟩
    exact ⟨(q, new), rfl, old, MemoryStore.read_eq_ok_iff.mpr hold, hnew⟩

/-- The order of the edits does not matter to whether they can be computed. -/
theorem exists_compute_perm {edit edit' : WorkspaceEdit} {s : MemoryStore}
    (h : edit.edits.Perm edit'.edits) :
    (∃ files, compute edit s = .ok files) ↔ ∃ files, compute edit' s = .ok files := by
  rw [exists_compute_iff, exists_compute_iff, WorkspaceEdit.validate_perm h]
  simp only [WorkspaceEdit.touches_perm h, (WorkspaceEdit.editsFor_perm h _).mem_iff]

/-- Where no write fails, an edit is carried out if it can be computed, and otherwise changes
    nothing. -/
theorem run_of_failing_eq_nil (edit : WorkspaceEdit) {s : MemoryStore} (hs : s.failing = []) :
    ((∃ files, compute edit s = .ok files) ∧ ∃ result s', run edit false s = (.ok result, s')) ∨
      ((¬ ∃ files, compute edit s = .ok files) ∧ ∃ err, run edit false s = (.error err, s)) := by
  rcases hcompute : compute edit s with err | files
  · refine .inr ⟨nofun, err, ?_⟩
    rw [run, hcompute]
  · refine .inl ⟨⟨files, rfl⟩, ?_⟩
    rcases hwrite : writeAll [] files s with ⟨err | _, s'⟩
    -- A failed write would be of a file whose writes are to fail.
    · obtain ⟨before, path, text, after, source, -, hbefore, -, hfail⟩ := writeAll_error hwrite
      have hfails := MemoryStore.write_error (writeAll_failing hbefore) hfail text
      simp [MemoryStore.write, hs] at hfails
    · refine ⟨{ files, written := true }, s', ?_⟩
      simp [run, hcompute, hwrite]

/-! ## What is written -/

/-- The same edits in another order have the same effect, if none of them only inserts. -/
theorem Carried.content?_eq {edit edit' : WorkspaceEdit} {s t t' : MemoryStore}
    (h : Carried edit s t) (h' : Carried edit' s t') (hperm : edit.edits.Perm edit'.edits)
    (hspan : ∀ e ∈ edit.edits, e.start < e.stop) (f : Path) : t.content? f = t'.content? f := by
  have htouches := WorkspaceEdit.touches_perm hperm f
  cases hf : edit.touches f with
  | false => rw [h.kept f hf, h'.kept f (htouches ▸ hf)]
  | true =>
    obtain ⟨old, new, hold, hnew, hreplaced⟩ := h.replaced f hf
    obtain ⟨old', new', hold', hnew', hreplaced'⟩ := h'.replaced f (htouches ▸ hf)
    cases hold.symm.trans hold'
    -- Disjoint edits that replace something have one order only in which they are carried out.
    have hsort := TextEdit.sortTailFirst_of_perm (WorkspaceEdit.editsFor_perm hperm f)
      (fun e he => hspan e (WorkspaceEdit.mem_of_mem_editsFor he))
      (TextEdit.pairwise_disjoint hreplaced.inOrder)
    have hreplacements : TextEdit.replacements (edit.editsFor f) =
        TextEdit.replacements (edit'.editsFor f) := by
      rw [TextEdit.replacements, TextEdit.replacements, hsort]
    have hbytes : Text.bytes new = Text.bytes new' := by
      rw [hreplaced.eq_substitute, hreplaced'.eq_substitute, hreplacements]
    rw [hnew, hnew', Text.bytes_injective hbytes]

end Apply

/-! ## Planning in another order -/

/-- Requests are consistent in every order. -/
theorem Batch.Consistent.perm {renames renames' : List RenameRequest} (h : Consistent renames)
    (hperm : renames.Perm renames') : Consistent renames' where
  ne_nil := by
    rw [← List.length_pos_iff, ← hperm.length_eq]
    exact List.length_pos_iff.mpr h.ne_nil
  names r hr := h.names r (hperm.mem_iff.mpr hr)
  sources := (hperm.map _).nodup_iff.mp h.sources
  targets := (hperm.map _).nodup_iff.mp h.targets
  chains chain hchain := h.chains chain (List.Subset.trans hchain hperm.symm.subset)

namespace Engine

variable {e : Engine} {renames renames' : List RenameRequest}

/-- A batch that can be planned can be planned in another order, with the same edits. -/
theorem planBatch_perm {plan : BatchPlan} (h : (e.planBatch renames).result = .ok plan)
    (hperm : renames.Perm renames') :
    ∃ plan', (e.planBatch renames').result = .ok plan' ∧
      plan'.edit.edits.Perm plan.edit.edits := by
  obtain ⟨hconsistent, hplans, hedit, hvalid⟩ := planBatch_eq_ok_iff.mp h
  obtain ⟨plans', hplans', hperm'⟩ := List.perm_comp_forall₂ hperm.symm hplans
  -- The plans are the same in another order, and so are their edits.
  have hedits : (Batch.mergedEdit plans').edits.Perm plan.edit.edits := by
    rw [hedit]
    exact hperm'.flatMap_right _
  refine ⟨⟨plans', Batch.mergedEdit plans'⟩, ?_, hedits⟩
  refine planBatch_eq_ok_iff.mpr ⟨hconsistent.perm hperm, hplans', rfl, ?_⟩
  -- Whether edits overlap does not depend on their order.
  refine hvalid.imp (fun hempty => ?_) (WorkspaceEdit.validate_perm hedits).mpr
  rw [hempty] at hedits
  exact hedits.eq_nil

/-- The edits of a batch are no insertions if no occurrence is empty. -/
theorem planBatch_span {plan : BatchPlan}
    (hspans : ∀ id occurrences, e.analyzer.occurrences id = .ok occurrences →
      ∀ o ∈ occurrences, o.start < o.stop)
    (h : (e.planBatch renames).result = .ok plan) :
    ∀ edit ∈ plan.edit.edits, edit.start < edit.stop := by
  obtain ⟨-, hplans, hedit, -⟩ := planBatch_eq_ok_iff.mp h
  intro edit hmem
  rw [hedit] at hmem
  obtain ⟨p, hp, hmem⟩ := List.mem_flatMap.mp hmem
  -- An edit of the batch comes from an occurrence.
  obtain ⟨r, -, hplanned⟩ := exists_planned_of_mem hplans hp
  obtain ⟨-, -, -, occurrences, hocc, -, rfl⟩ := plan_eq_ok.mp hplanned
  obtain ⟨o, ho, rfl⟩ := List.mem_map.mp hmem
  rcases Answer.orDefault_eq_ok.mp hocc with hocc | ⟨-, rfl⟩
  · exact hspans _ _ hocc o ho
  · exact nomatch ho

/-! ## Two variables of one file -/

/-- Another variable. -/
def mp : SymbolId := ⟨["proj", "var"], "mp"⟩

/-- The engine that knows where two variables occur: in one file, whose path is spelled in two
    ways. -/
def knowingTwo : Engine :=
  { analyzer := AnalyzerTables.analyzer
      { occurrences := some [(hp, [⟨⟨"src/a.gml"⟩, 0, 2, none, .definition⟩]),
          (mp, [⟨⟨"src//a.gml"⟩, 3, 5, none, .definition⟩])] } }

/-- A project with the two variables. -/
def twoStore : MemoryStore where
  files := [(⟨"src/a.gml"⟩, "hp+mp")]
  failing := []
  writes := 0

/-- The plan that renames both. -/
def twoPlan : BatchPlan :=
  let plans : List RenamePlan := [
    ⟨hp, "hp", "life", ⟨[⟨⟨"src/a.gml"⟩, 0, 2, "life"⟩]⟩, []⟩,
    ⟨mp, "mp", "mana", ⟨[⟨⟨"src//a.gml"⟩, 3, 5, "mana"⟩]⟩, []⟩]
  { plans, edit := Batch.mergedEdit plans }

/-- No occurrence of the two variables is empty. -/
theorem knowingTwo_span (id : SymbolId) (occurrences : List Occurrence)
    (h : knowingTwo.analyzer.occurrences id = .ok occurrences) :
    ∀ o ∈ occurrences, o.start < o.stop := by
  cases h
  intro o ho
  obtain ⟨row, hrow, hlisted⟩ := exists_row_of_mem_lookup ho
  clear ho
  revert o
  revert row
  decide

/-- The batch is planned: no new name is the old name of the other variable. -/
theorem planBatch_two :
    (knowingTwo.planBatch [⟨hp, "life"⟩, ⟨mp, "mana"⟩]).result = .ok twoPlan := by
  refine planBatch_eq_ok_iff.mpr
    ⟨⟨by decide, by decide, by decide, by decide, ?_⟩, ?_, rfl, .inr ?_⟩
  · intro chain hsub hclosed
    -- No rename leads to the symbol of another, so there is no chain that could lead back.
    have hapart : ∀ r ∈ [(⟨hp, "life"⟩ : RenameRequest), ⟨mp, "mana"⟩],
        ∀ r' ∈ [(⟨hp, "life"⟩ : RenameRequest), ⟨mp, "mana"⟩], r.targetId ≠ r'.symbolId := by
      decide
    obtain ⟨r, hr, r', hr', hlink⟩ := hclosed.exists_link
    exact hapart r (hsub hr) r' (hsub hr') hlink
  · refine .cons ?_ (.cons ?_ .nil)
    · exact Except.toOption_eq_some.mp (by decide +kernel)
    · exact Except.toOption_eq_some.mp (by decide +kernel)
  · exact WorkspaceEdit.validate_eq_ok_iff.mpr
      ⟨by decide, by decide, by simp [twoPlan, Batch.mergedEdit, TextEdit.Disjoint]⟩

/-- The project after both were renamed. -/
def twoRenamed : MemoryStore where
  files := [(⟨"src/a.gml"⟩, "life+mana")]
  failing := []
  writes := 1

/-- The edits of both spellings are one group, in the order in which they are applied. -/
theorem groups_two : twoPlan.edit.groups =
    [(⟨"src/a.gml"⟩, [⟨⟨"src//a.gml"⟩, 3, 5, "mana"⟩, ⟨⟨"src/a.gml"⟩, 0, 2, "life"⟩])] := by
  have hkeys : twoPlan.edit.groupKeys = [⟨"src/a.gml"⟩] := by decide +kernel
  have hedits : twoPlan.edit.editsFor ⟨"src/a.gml"⟩ =
      [⟨⟨"src/a.gml"⟩, 0, 2, "life"⟩, ⟨⟨"src//a.gml"⟩, 3, 5, "mana"⟩] := by decide +kernel
  rw [WorkspaceEdit.groups, hkeys, List.map_singleton, hedits]
  cbv

/-- Both variables are renamed in one write. -/
theorem run_two : Apply.run twoPlan.edit false twoStore =
    (.ok { files := [(⟨"src/a.gml"⟩, "life+mana")], written := true }, twoRenamed) := by
  have hvalid : twoPlan.edit.validate = .ok () := by
    rw [WorkspaceEdit.validate, groups_two]
    rfl
  exact Apply.run_of_oneGroup hvalid groups_two rfl
    (Splice.apply_of_tailFirst (by decide) (by decide) (by decide)) rfl

/-! ## Planning and applying -/

/-- The order of the requests of a batch does not matter. It is planned in one order if it is in
    the other, and where no write fails, applying the two edits fails for both and changes
    nothing, or succeeds for both and leaves the same files. -/
theorem planBatch_any_order {s : MemoryStore}
    (hspans : ∀ id occurrences, e.analyzer.occurrences id = .ok occurrences →
      ∀ o ∈ occurrences, o.start < o.stop)
    (hperm : renames.Perm renames') (hs : s.failing = []) :
    ((∃ plan, (e.planBatch renames).result = .ok plan) ↔
      ∃ plan', (e.planBatch renames').result = .ok plan') ∧
    ∀ plan plan', (e.planBatch renames).result = .ok plan →
      (e.planBatch renames').result = .ok plan' →
      (∃ err err', Apply.run plan.edit false s = (.error err, s) ∧
        Apply.run plan'.edit false s = (.error err', s)) ∨
      ∃ applied applied' t t', Apply.run plan.edit false s = (.ok applied, t) ∧
        Apply.run plan'.edit false s = (.ok applied', t') ∧
        ∀ f, t.content? f = t'.content? f := by
  refine ⟨⟨fun ⟨_, h⟩ => ?_, fun ⟨_, h⟩ => ?_⟩, fun plan plan' h h' => ?_⟩
  · obtain ⟨plan', h', -⟩ := planBatch_perm h hperm
    exact ⟨plan', h'⟩
  · obtain ⟨plan, h', -⟩ := planBatch_perm h hperm.symm
    exact ⟨plan, h'⟩
  · obtain ⟨_, hplan', hedits⟩ := planBatch_perm h hperm
    cases h'.symm.trans hplan'
    have hcompute := Apply.exists_compute_perm (s := s) hedits.symm
    -- Both edits can be computed or none, so that two of the four cases do not arise.
    rcases Apply.run_of_failing_eq_nil plan.edit hs with
        ⟨hok, applied, t, hrun⟩ | ⟨hbad, err, hrun⟩ <;>
      rcases Apply.run_of_failing_eq_nil plan'.edit hs with
        ⟨hok', applied', t', hrun'⟩ | ⟨hbad', err', hrun'⟩
    · refine .inr ⟨applied, applied', t, t', hrun, hrun', ?_⟩
      exact (Apply.run_ok hrun).1.content?_eq (Apply.run_ok hrun').1 hedits.symm
        (planBatch_span hspans h)
    · exact absurd (hcompute.mp hok) hbad'
    · exact absurd (hcompute.mpr hok') hbad
    · exact .inl ⟨err, err', hrun, hrun'⟩

/-- Two variables of one file, which is spelled in two ways: both orders give the same text. -/
theorem planBatch_any_order_two :
    (∀ id occurrences, knowingTwo.analyzer.occurrences id = .ok occurrences →
      ∀ o ∈ occurrences, o.start < o.stop) ∧
    twoStore.failing = [] ∧
    [(⟨hp, "life"⟩ : RenameRequest), ⟨mp, "mana"⟩].Perm [⟨mp, "mana"⟩, ⟨hp, "life"⟩] ∧
    ∃ plan plan', (knowingTwo.planBatch [⟨hp, "life"⟩, ⟨mp, "mana"⟩]).result = .ok plan ∧
      (knowingTwo.planBatch [⟨mp, "mana"⟩, ⟨hp, "life"⟩]).result = .ok plan' ∧
      ∃ applied applied' t t', Apply.run plan.edit false twoStore = (.ok applied, t) ∧
        Apply.run plan'.edit false twoStore = (.ok applied', t') ∧
        (∀ f, t.content? f = t'.content? f) ∧
        t.content? ⟨"src/a.gml"⟩ = some "life+mana" ∧
        t'.content? ⟨"src/a.gml"⟩ = some "life+mana" := by
  have hperm : [(⟨hp, "life"⟩ : RenameRequest), ⟨mp, "mana"⟩].Perm [⟨mp, "mana"⟩, ⟨hp, "life"⟩] :=
    .swap _ _ _
  obtain ⟨hplanned, hsame⟩ := planBatch_any_order (s := twoStore) knowingTwo_span hperm rfl
  obtain ⟨plan', hplan'⟩ := hplanned.mp ⟨_, planBatch_two⟩
  refine ⟨knowingTwo_span, rfl, hperm, _, plan', planBatch_two, hplan', ?_⟩
  -- One order succeeds, so the other does, with the same texts.
  rcases hsame _ _ planBatch_two hplan' with ⟨err, -, herr, -⟩ |
    ⟨applied, applied', t, t', hrun, hrun', htexts⟩
  · exact nomatch herr.symm.trans run_two
  · have ht : t = twoRenamed := congrArg Prod.snd (hrun.symm.trans run_two)
    have htext : t.content? ⟨"src/a.gml"⟩ = some "life+mana" := by
      rw [ht]
      decide +kernel
    exact ⟨applied, applied', t, t', hrun, hrun', htexts, htext, htexts _ ▸ htext⟩

end Engine
end HotRename
