import HotRename.Collaborator.Table
import HotRename.Proofs.Rename.AllOrNothing
import HotRename.Proofs.Rename.Inquiry
import HotRename.Rename.Execute
import Mathlib.Data.List.Permutation

/-!
# What a rename does to a store

A rename that goes through puts the new name in the place of every occurrence of the symbol and
changes nothing else. The spans of a file are replaced at once, in the text that the file had
before. Main statements:

* `replacements_renameEdit`  the edit of a plan replaces exactly the spans of the occurrences
* `execute_answer`           a rename as plan, application and the steps after it
* `execute_ok_renamed`       the store after a rename
-/

namespace HotRename

namespace Span

/-- `a` starts before `b`, or the two start together and `b` ends no earlier. -/
def headFirst (a b : Span) : Bool :=
  a.start < b.start || (a.start = b.start && a.stop ≤ b.stop)

/-- The order of spans, without the test. -/
theorem headFirst_iff {a b : Span} :
    a.headFirst b = true ↔ a.start < b.start ∨ a.start = b.start ∧ a.stop ≤ b.stop := by
  simp [headFirst]

/-- The order of spans is transitive. -/
theorem headFirst_trans {a b c : Span} (hab : a.headFirst b = true) (hbc : b.headFirst c = true) :
    a.headFirst c = true := by
  rw [headFirst_iff] at hab hbc ⊢
  omega

/-- Any two spans are in order one way or the other. -/
theorem headFirst_total (a b : Span) : (a.headFirst b || b.headFirst a) = true := by
  rw [Bool.or_eq_true, headFirst_iff, headFirst_iff]
  omega

/-- Spans that are in order both ways are equal. -/
theorem headFirst_antisymm {a b : Span} (hab : a.headFirst b = true) (hba : b.headFirst a = true) :
    a = b := by
  rw [headFirst_iff] at hab hba
  obtain ⟨start, stop⟩ := a
  obtain ⟨start', stop'⟩ := b
  simp only [Span.mk.injEq]
  simp only at hab hba
  omega

end Span

/-- The spans at which a symbol occurs in a file, in ascending order. -/
def Occurrence.spansIn (f : Path) (occurrences : List Occurrence) : List Span :=
  ((occurrences.filter fun o => f.same o.path).map fun o => ⟨o.start, o.stop⟩).mergeSort
    Span.headFirst

/-! ## The edit of a plan -/

namespace Engine

/-- The files that are edited are those of the occurrences. -/
theorem touches_renameEdit (newName : String) (occurrences : List Occurrence) (f : Path) :
    (renameEdit newName occurrences).touches f = occurrences.any fun o => f.same o.path := by
  rw [renameEdit, WorkspaceEdit.touches, List.any_map]
  rfl

/-- A file has one edit for each occurrence in it. -/
theorem editsFor_renameEdit (newName : String) (occurrences : List Occurrence) (f : Path) :
    (renameEdit newName occurrences).editsFor f =
      (occurrences.filter fun o => f.same o.path).map fun o =>
        { path := o.path, start := o.start, stop := o.stop, newText := newName } := by
  rw [renameEdit, WorkspaceEdit.editsFor, List.filter_map]
  rfl

/-- The edit of a plan replaces exactly the spans of the occurrences, each by the new name. -/
theorem replacements_renameEdit (newName : String) (occurrences : List Occurrence) (f : Path) :
    TextEdit.replacements ((renameEdit newName occurrences).editsFor f) =
      (Occurrence.spansIn f occurrences).map fun span => (span, newName) := by
  let edits := (renameEdit newName occurrences).editsFor f
  -- All edits have one new text, so an edit is known by its span.
  have htext : ∀ e ∈ (TextEdit.sortTailFirst edits).reverse, e.replacement = (e.span, newName) := by
    intro e he
    rw [List.mem_reverse, (TextEdit.sortTailFirst_perm edits).mem_iff,
      show edits = _ from editsFor_renameEdit newName occurrences f] at he
    obtain ⟨o, -, rfl⟩ := List.mem_map.mp he
    rfl
  -- Both sides sort the same spans, and the order leaves no choice between two arrangements.
  have hspans : (TextEdit.sortTailFirst edits).reverse.map TextEdit.span =
      Occurrence.spansIn f occurrences := by
    refine List.Perm.eq_of_pairwise
      (fun a b _ _ (hab : a.headFirst b = true) hba => Span.headFirst_antisymm hab hba) ?_ ?_ ?_
    · rw [List.pairwise_map, List.pairwise_reverse]
      refine (TextEdit.sortTailFirst_pairwise edits).imp ?_
      intro a b hab
      rw [TextEdit.tailFirst_iff] at hab
      exact Span.headFirst_iff.mpr hab
    · exact @List.pairwise_mergeSort Span Span.headFirst (fun _ _ _ => Span.headFirst_trans)
        Span.headFirst_total _
    · refine ((List.reverse_perm _).trans (TextEdit.sortTailFirst_perm edits)).map _ |>.trans ?_
      rw [show edits = _ from editsFor_renameEdit newName occurrences f, List.map_map]
      exact (List.mergeSort_perm _ _).symm
  rw [← hspans, TextEdit.replacements, List.map_map]
  exact List.map_congr_left htext

end Engine

/-- The files after a rename: those that an occurrence names have the new name at every span, all
    others are as they were, and there are no more and no fewer files than before. -/
structure MemoryStore.Renamed (s s' : MemoryStore) (newName : String)
    (occurrences : List Occurrence) : Prop where
  kept : ∀ f, (∀ o ∈ occurrences, f.same o.path = false) → s'.content? f = s.content? f
  replaced : ∀ f, (∃ o ∈ occurrences, f.same o.path = true) →
    s.ReplacedIn s' f ((Occurrence.spansIn f occurrences).map fun span => (span, newName))
  sameFiles : ∀ f, (s'.content? f).isSome = (s.content? f).isSome

/-- Carrying out the edit of a plan is the rename. -/
theorem Apply.Carried.renamed {newName : String} {occurrences : List Occurrence}
    {s s' : MemoryStore} (h : Carried (Engine.renameEdit newName occurrences) s s') :
    s.Renamed s' newName occurrences := by
  have hkept : ∀ f, (∀ o ∈ occurrences, f.same o.path = false) →
      s'.content? f = s.content? f := by
    intro f hf
    refine h.kept f ?_
    rw [Engine.touches_renameEdit, List.any_eq_false]
    intro o ho
    rw [hf o ho]
    decide
  have hreplaced : ∀ f, (∃ o ∈ occurrences, f.same o.path = true) →
      s.ReplacedIn s' f ((Occurrence.spansIn f occurrences).map fun span => (span, newName)) := by
    intro f hf
    rw [← Engine.replacements_renameEdit]
    refine h.replaced f ?_
    rw [Engine.touches_renameEdit]
    exact List.any_eq_true.mpr hf
  refine ⟨hkept, hreplaced, ?_⟩
  -- A renamed file was there before and is there afterwards.
  intro f
  by_cases hf : ∃ o ∈ occurrences, f.same o.path = true
  · obtain ⟨old, new, hold, hnew, -⟩ := hreplaced f hf
    rw [hold, hnew]
    rfl
  · rw [hkept f ?_]
    intro o ho
    exact Bool.eq_false_iff.mpr fun hsame => hf ⟨o, ho, hsame⟩

/-- What a table lists under a key is listed in one of its rows. -/
theorem exists_row_of_mem_lookup {α β : Type} [BEq α] [LawfulBEq α] {rows : List (α × List β)}
    {a : α} {b : β} (h : b ∈ (rows.lookup a).getD []) : ∃ row ∈ rows, b ∈ row.2 := by
  cases hfound : rows.lookup a with
  | none =>
    rw [hfound] at h
    cases h
  | some found =>
    rw [hfound] at h
    obtain ⟨before, after, hsplit, -⟩ := List.lookup_eq_some_iff.mp hfound
    exact ⟨(a, found), by rw [hsplit]; simp, h⟩

/-! ## Walks step by step -/

namespace Cascade

variable {dependents : List SymbolId → Answer (List Dependent)} {changed : List SymbolId}
  {finite : FiniteReach (dependentIds dependents) changed} {w : Walk}
  {reached : Walk.Reached dependents changed w.pending}

/-- A walk with nothing left to expand is finished. -/
theorem walk_nil (hpending : w.pending = []) :
    (walk dependents finite w reached).answer = .ok w := by
  rw [walk]
  split
  · rfl
  · rename_i hcons
    rw [hpending] at hcons
    cases hcons

/-- A walk goes on once the dependents of a symbol were met. -/
theorem walk_expand {current : SymbolId} {rest : List SymbolId} {found : List Dependent} {w' : Walk}
    (hpending : w.pending = current :: rest) (hnew : current ∉ w.expanded)
    (h : (dependents [current]).orDefault [] = .ok found)
    (hrest : ∀ reached',
      (walk dependents finite (w.expand current found rest) reached').answer = .ok w') :
    (walk dependents finite w reached).answer = .ok w' := by
  rw [walk]
  split
  · rename_i hnone
    rw [hpending] at hnone
    cases hnone
  -- The symbol is the first one that waits, and it is new.
  · rename_i id tail hcons
    obtain ⟨rfl, rfl⟩ := List.cons.inj (hpending.symm.trans hcons)
    rw [dif_neg hnew]
    split
    · rename_i hanswer
      rw [h] at hanswer
      cases hanswer
    · rename_i hanswer
      rw [h] at hanswer
      cases hanswer
      exact hrest _

end Cascade

namespace Engine

/-! ## The steps of a rename -/

/-- The plan of a rename, and what validation says about its edit. -/
def prepared (e : Engine) (r : RenameRequest) :
    Except RenameError (RenamePlan × ValidationReport) := do
  let plan ← (e.plan r).result
  let validation ← (e.validate plan.edit).result
  return (plan, validation)

/-- A rename as its three parts, of which only the second changes the store. -/
theorem execute_answer {σ : Type} [Store σ] (e : Engine) (r : RenameRequest) (dryRun : Bool)
    (s : σ) :
    (e.execute r dryRun s).answer =
      match e.prepared r with
      | .error err => (.error err, s)
      | .ok (plan, validation) =>
        match Apply.run plan.edit dryRun s with
        | (.error err, s') => (.error err, s')
        | (.ok applied, s') =>
          if dryRun then
            (.ok { plan, validation, applied, integrity := none, hotReload := none }, s')
          else ((e.finish r plan validation applied (Store.read s')).result, s') := by
  have hprepared : Inquiry.result (do
      let plan ← e.plan r
      let validation ← e.validate plan.edit
      return (plan, validation)) = e.prepared r := by
    simp only [Inquiry.result_bind, Inquiry.result_pure]
    rfl
  -- What is asked on the way plays no part in the answer.
  rw [execute, Asked.answer_bind, Inquiry.run_answer, hprepared]
  rcases e.prepared r with err | ⟨plan, validation⟩
  · rfl
  · dsimp only
    rcases Apply.run plan.edit dryRun s with ⟨err | applied, s'⟩
    · rfl
    · cases dryRun <;> rfl

/-- When a rename is planned, and what its plan is. -/
theorem plan_eq_ok {e : Engine} {r : RenameRequest} {plan : RenamePlan} :
    (e.plan r).result = .ok plan ↔
      Identifier.validate r.newName = .ok () ∧
      (e.analyzer.hasSymbol r.symbolId).orDefault true = .ok true ∧
      r.newName ≠ r.oldName ∧
      ∃ occurrences, (e.analyzer.occurrences r.symbolId).orDefault [] = .ok occurrences ∧
        let conflicts := (e.detectConflicts r.symbolId r.newName occurrences).answer
        conflicts.any Conflict.isBlocking = false ∧
        plan = {
          symbolId := r.symbolId
          oldName := r.oldName
          newName := r.newName
          edit := renameEdit r.newName occurrences
          notices := conflicts } := by
  -- A check that passes has the one result of its type.
  have hunit {x : Except IdentifierError Unit} : (∃ a, x = .ok a) ↔ x = .ok () :=
    ⟨fun ⟨_, h⟩ => h, fun h => ⟨_, h⟩⟩
  simp [Engine.plan, Engine.symbolExists, Engine.occurrencesOf, Except.bind_eq_ok,
    Except.mapError_eq_ok, ite_eq_iff, hunit, @eq_comm _ plan]

/-- An edit that passes validation is not empty. -/
theorem validate_ok {e : Engine} {edit : WorkspaceEdit} {report : ValidationReport}
    (h : (e.validate edit).result = .ok report) : edit.validate = .ok () := by
  simp only [Engine.validate, Inquiry.result_bind, Inquiry.result_ofExcept] at h
  obtain ⟨_, hvalid, -⟩ := Except.bind_eq_ok.mp h
  exact Except.mapError_eq_ok.mp hvalid

/-- The edit of a prepared rename is made from the occurrences that the analyzer reports. -/
theorem prepared_ok {e : Engine} {r : RenameRequest} {plan : RenamePlan}
    {validation : ValidationReport} (h : e.prepared r = .ok (plan, validation)) :
    ∃ occurrences, e.analyzer.occurrences r.symbolId = .ok occurrences ∧
      plan.edit = renameEdit r.newName occurrences := by
  obtain ⟨plan', hplan, h⟩ := Except.bind_eq_ok.mp h
  obtain ⟨validation', hvalidate, h⟩ := Except.bind_eq_ok.mp h
  cases h
  obtain ⟨-, -, -, occurrences, hocc, -, rfl⟩ := plan_eq_ok.mp hplan
  refine ⟨occurrences, ?_, rfl⟩
  -- An analyzer that cannot tell the occurrences leads to an empty edit, which is refused.
  rcases Answer.orDefault_eq_ok.mp hocc with hocc | ⟨-, rfl⟩
  · exact hocc
  · exact nomatch validate_ok hvalidate

/-- The new name of a prepared rename is an identifier, and not the name that the symbol has. -/
theorem names_of_prepared {e : Engine} {r : RenameRequest} {plan : RenamePlan}
    {validation : ValidationReport} (h : e.prepared r = .ok (plan, validation)) :
    Identifier.validate r.newName = .ok () ∧ r.newName ≠ r.oldName := by
  obtain ⟨plan', hplan, -⟩ := Except.bind_eq_ok.mp h
  obtain ⟨hname, -, hne, -⟩ := plan_eq_ok.mp hplan
  exact ⟨hname, hne⟩

/-- A rename goes through when each of its parts does. -/
theorem execute_eq_ok {σ : Type} [Store σ] {e : Engine} {r : RenameRequest} {s s' : σ}
    {outcome : RenameOutcome} :
    (e.execute r false s).answer = (.ok outcome, s') ↔
      ∃ plan validation applied, e.prepared r = .ok (plan, validation) ∧
        Apply.run plan.edit false s = (.ok applied, s') ∧
        (e.finish r plan validation applied (Store.read s')).result = .ok outcome := by
  rw [execute_answer]
  rcases hprepared : e.prepared r with err | ⟨plan, validation⟩
  · simp
  -- Only a write that succeeds is followed by the checks.
  · rcases hrun : Apply.run plan.edit false s with ⟨err | applied, s₁⟩
    · simp [hrun]
    · constructor
      · intro h
        simp only [hrun] at h
        obtain ⟨hfinish, rfl⟩ := Prod.mk.inj h
        exact ⟨plan, validation, applied, rfl, hrun, hfinish⟩
      · rintro ⟨plan, validation, applied, ⟨⟩, hrun', hfinish⟩
        rw [hrun] at hrun'
        obtain ⟨⟨⟩, rfl⟩ := Prod.mk.inj hrun'
        simp only [hrun]
        exact Prod.ext hfinish rfl

/-- A rename puts the new name in the place of every occurrence that the analyzer reports, all of
    them at once in the text that the file had, and changes no other file. -/
theorem execute_ok_renamed {e : Engine} {r : RenameRequest} {s s' : MemoryStore}
    {outcome : RenameOutcome} (h : (e.execute r false s).answer = (.ok outcome, s')) :
    ∃ occurrences, e.analyzer.occurrences r.symbolId = .ok occurrences ∧
      s.Renamed s' r.newName occurrences := by
  obtain ⟨plan, validation, applied, hprepared, hrun, -⟩ := execute_eq_ok.mp h
  obtain ⟨occurrences, hocc, hedit⟩ := prepared_ok hprepared
  rw [hedit] at hrun
  exact ⟨occurrences, hocc, (Apply.run_ok hrun).1.renamed⟩

/-! ## A rename of a variable -/

/-- The engine that knows where one symbol occurs and nothing else. -/
def knowing (id : SymbolId) (occurrences : List Occurrence) (failing : List Capability) : Engine :=
  { analyzer := AnalyzerTables.analyzer
      { occurrences := some [(id, occurrences)], failing := failing } }

/-- A variable. -/
def hp : SymbolId := ⟨["proj", "var"], "hp"⟩

/-- The variable is declared behind a letter of two bytes, and read. -/
def hpOccurrences : List Occurrence :=
  [⟨⟨"a.gml"⟩, 3, 5, none, .definition⟩, ⟨⟨"a.gml"⟩, 8, 10, none, .reference⟩]

/-- A project with the variable, and with a file that has a word of that name. -/
def hpStore : MemoryStore where
  files := [(⟨"a.gml"⟩, "é hp = hp;"), (⟨"b.gml"⟩, "hp")]
  failing := []
  writes := 0

/-- The project after the variable was renamed. -/
def lifeStore : MemoryStore where
  files := [(⟨"a.gml"⟩, "é life = life;"), (⟨"b.gml"⟩, "hp")]
  failing := []
  writes := 1

/-- The edits of the file, from its end to its start. -/
theorem groups_hpOccurrences : (renameEdit "life" hpOccurrences).groups =
    [(⟨"a.gml"⟩, [⟨⟨"a.gml"⟩, 8, 10, "life"⟩, ⟨⟨"a.gml"⟩, 3, 5, "life"⟩])] := by
  have hedits : (renameEdit "life" hpOccurrences).editsFor ⟨"a.gml"⟩ =
      [⟨⟨"a.gml"⟩, 3, 5, "life"⟩, ⟨⟨"a.gml"⟩, 8, 10, "life"⟩] := by decide
  have hkeys : (renameEdit "life" hpOccurrences).groupKeys = [⟨"a.gml"⟩] := by decide +kernel
  rw [WorkspaceEdit.groups, hkeys, List.map_singleton, hedits]
  cbv

/-- They do not overlap. -/
theorem validate_hpOccurrences : (renameEdit "life" hpOccurrences).validate = .ok () := by
  rw [WorkspaceEdit.validate, groups_hpOccurrences]
  rfl

/-- The edits are carried out. -/
theorem run_hpOccurrences :
    Apply.run (renameEdit "life" hpOccurrences) false hpStore =
      (.ok { files := [(⟨"a.gml"⟩, "é life = life;")], written := true }, lifeStore) :=
  Apply.run_of_oneGroup validate_hpOccurrences groups_hpOccurrences rfl
    (Splice.apply_of_tailFirst (by decide) (by decide) (by decide)) rfl

/-- The plan for the variable. -/
def hpPlan : RenamePlan where
  symbolId := hp
  oldName := "hp"
  newName := "life"
  edit := renameEdit "life" hpOccurrences
  notices := []

/-- The rename is planned, whether the analyzer fails to tell dependents or not. -/
theorem prepared_hp {failing : List Capability} (h : failing = [] ∨ failing = [.dependents]) :
    (knowing hp hpOccurrences failing).prepared ⟨hp, "life"⟩ =
      .ok (hpPlan, { files := 1, edits := 2, warnings := [] }) := by
  have hplan : ((knowing hp hpOccurrences failing).plan ⟨hp, "life"⟩).result = .ok hpPlan := by
    rw [← Except.toOption_eq_some]
    rcases h with rfl | rfl <;> decide +kernel
  have hvalidate : ((knowing hp hpOccurrences failing).validate hpPlan.edit).result =
      .ok { files := 1, edits := 2, warnings := [] } := by
    rw [← Except.toOption_eq_some, validate, WorkspaceEdit.validate,
      show hpPlan.edit.groups = _ from groups_hpOccurrences]
    rcases h with rfl | rfl <;> decide +kernel
  exact Except.bind_eq_ok.mpr ⟨_, hplan, Except.bind_eq_ok.mpr ⟨_, hvalidate, rfl⟩⟩

/-- The cascade of an engine is read off the walk. -/
theorem cascade_of_walk {e : Engine} {changed : List SymbolId} {w : Cascade.Walk}
    (h : (Cascade.walk _ (e.analyzer.finite changed) (.start changed)
      (Cascade.start_reached _ _)).answer = .ok w) :
    (e.cascade changed).result = .ok (Cascade.ofWalk changed w) := by
  change (Cascade.compute _ _ _).answer.mapError _ = _
  rw [Cascade.compute, Asked.answer_bind, h]
  rfl

/-- The cascade of a symbol without dependents. -/
theorem cascade_leaf {e : Engine} {id : SymbolId}
    (h : (e.analyzer.dependents [id]).orDefault [] = .ok []) :
    (e.cascade [id]).result =
      .ok (Cascade.ofWalk [id] ((Cascade.Walk.start [id]).expand id [] [])) :=
  cascade_of_walk (Cascade.walk_expand rfl List.not_mem_nil h fun _ => Cascade.walk_nil rfl)

/-- The cascade of the variable, which has no dependents. -/
theorem cascade_hp {e : Engine} (h : (e.analyzer.dependents [hp]).orDefault [] = .ok []) :
    (e.cascade [hp]).result = .ok {
      entries := [⟨hp, 0, "changed directly", none⟩]
      order := [hp]
      circular := []
      totalSymbols := 1
      maxDistance := 0
      hasCircular := false } := by
  rw [cascade_leaf h]
  cbv

/-- The checks after the write go through. -/
theorem finish_hp : ((knowing hp hpOccurrences []).finish ⟨hp, "life"⟩ hpPlan
    { files := 1, edits := 2, warnings := [] }
    { files := [(⟨"a.gml"⟩, "é life = life;")], written := true }
    (Store.read lifeStore)).result.isOk = true := by
  have hcascade := @cascade_hp (knowing hp hpOccurrences []) rfl
  simp only [finish, prepareReload, List.map_cons, List.map_nil, Inquiry.result_bind, hcascade]
  decide +kernel

/-- The variable is renamed in one file, and the other file is as it was. -/
theorem execute_ok_renamed_hp :
    ∃ outcome, ((knowing hp hpOccurrences []).execute ⟨hp, "life"⟩ false hpStore).answer =
        (.ok outcome, lifeStore) ∧
      ∃ occurrences, (knowing hp hpOccurrences []).analyzer.occurrences hp = .ok occurrences ∧
        hpStore.Renamed lifeStore "life" occurrences := by
  obtain ⟨outcome, hfinish⟩ := Except.isOk_iff.mp finish_hp
  have h := execute_eq_ok.mpr ⟨_, _, _, prepared_hp (.inl rfl), run_hpOccurrences, hfinish⟩
  exact ⟨outcome, h, execute_ok_renamed h⟩

end Engine
end HotRename
