import HotRename.Proofs.Rename.BatchOrder

/-!
# Losing a capability

Three capabilities of an analyzer serve to check a rename: whether the symbol exists, what the new
name means in a scope, and which words are reserved. An analyzer that loses some of them finds fewer
conflicts and refuses fewer renames, and the edits of those that were planned before stay as they
were. Main statements:

* `shadowConflicts_sublist`, `reservedConflicts_sublist`  no conflict is found that was not before
* `plan_without`         a rename that is planned is planned without the capabilities too
* `planning_without`     so is a batch, with the same edit
-/

namespace HotRename

/-- The answer, unless its capability is among the lost ones. -/
def Answer.without (lost : List Capability) (c : Capability) (answer : Answer α) : Answer α :=
  if c ∈ lost then .error (.unsupported c) else answer

/-- An answer is kept, or it is that the capability is missing. -/
theorem Answer.without_eq (lost : List Capability) (c : Capability) (answer : Answer α) :
    answer.without lost c = answer ∨ answer.without lost c = .error (.unsupported c) := by
  unfold Answer.without
  by_cases h : c ∈ lost
  · simp [h]
  · simp [h]

/-- The analyzer after the loss of those of the lost capabilities that serve to check a rename. -/
def Analyzer.without (a : Analyzer) (lost : List Capability) : Analyzer :=
  { a with
    hasSymbol := fun id => (a.hasSymbol id).without lost .hasSymbol
    lookup := fun name scope => (a.lookup name scope).without lost .lookup
    reservedKeywords := a.reservedKeywords.without lost .reservedKeywords }

/-- The second plan answers the same request by the same edit, and with no other notices. -/
structure RenamePlan.Relaxed (plan plan' : RenamePlan) : Prop where
  request : plan'.request = plan.request
  edit : plan'.edit = plan.edit
  notices : plan'.notices.Sublist plan.notices

namespace Engine

/-- The engine whose analyzer has lost capabilities. -/
def without (e : Engine) (lost : List Capability) : Engine :=
  { e with analyzer := e.analyzer.without lost }

variable {e : Engine} {r : RenameRequest} {renames : List RenameRequest}

/-! ## Conflicts -/

/-- Without capabilities no more taken names are found. -/
theorem shadowConflicts_sublist (lost : List Capability) (id : SymbolId) (newName : String)
    (checked : List (Option String)) (occurrences : List Occurrence) :
    ((e.without lost).shadowConflicts id newName checked occurrences).answer.Sublist
      (e.shadowConflicts id newName checked occurrences).answer := by
  induction occurrences generalizing checked with
  | nil => exact .refl _
  | cons o os ih =>
    have hlookup : (e.without lost).analyzer.lookup newName o.scope =
        (e.analyzer.lookup newName o.scope).without lost .lookup := rfl
    rw [shadowConflicts, shadowConflicts]
    split
    · exact ih checked
    · simp only [Asked.answer_bind, Asked.answer_ask, hlookup]
      cases Answer.without_eq lost .lookup (e.analyzer.lookup newName o.scope) with
      | inr hlost =>
        -- Without the capability the loop ends here, and what it would still find is left out.
        rw [hlost]
        exact List.nil_sublist _
      | inl hkept =>
        rw [hkept]
        rcases e.analyzer.lookup newName o.scope with (c | ⟨c, why⟩) | (_ | existing)
        · exact .refl _
        · exact (ih _).cons_cons _
        · exact ih _
        · simp only [Answer.supported, Asked.answer_bind]
          split
          · exact ih _
          · exact (ih _).cons_cons _

/-- The words that are reserved whatever the analyzer says. -/
def ownWords (e : Engine) : ReservedWords :=
  ReservedWords.builtin.extend e.config.extraReservedWords

/-- The analyzer only adds words. -/
theorem contains_reservedWords {name : String} (h : e.ownWords.contains name = true) :
    e.reservedWords.answer.1.contains name = true := by
  rw [reservedWords, Asked.answer_bind, Asked.answer_ask]
  rcases e.analyzer.reservedKeywords with (c | ⟨c, why⟩) | words
  · exact h
  · exact h
  · exact ReservedWords.contains_extend_iff.mpr (.inl h)

/-- An analyzer that has lost its words adds none, and does not fail either. -/
theorem reservedWords_without (e : Engine) (lost : List Capability) :
    (e.without lost).reservedWords.answer = e.reservedWords.answer ∨
      (e.without lost).reservedWords.answer = (e.ownWords, []) := by
  have hwords : (e.without lost).analyzer.reservedKeywords =
      e.analyzer.reservedKeywords.without lost .reservedKeywords := rfl
  simp only [reservedWords, Asked.answer_bind, Asked.answer_ask, hwords]
  -- The query is answered as before, or not at all.
  cases Answer.without_eq lost .reservedKeywords e.analyzer.reservedKeywords with
  | inl hkept =>
    left
    rw [hkept]
    rfl
  | inr hlost =>
    right
    rw [hlost]
    rfl

/-- Without capabilities no more reserved names are found. -/
theorem reservedConflicts_sublist (lost : List Capability) (newName : String) :
    ((e.without lost).reservedConflicts newName).answer.Sublist
      (e.reservedConflicts newName).answer := by
  have hanswer : ∀ e : Engine, (e.reservedConflicts newName).answer =
      e.reservedWords.answer.2 ++
        if e.reservedWords.answer.1.contains newName then [.reserved newName] else [] :=
    fun _ => rfl
  rw [hanswer, hanswer]
  cases reservedWords_without e lost with
  | inl hkept => rw [hkept]
  | inr hlost =>
    rw [hlost, List.nil_append]
    -- A name that is reserved without the analyzer is reserved with it.
    by_cases hname : e.ownWords.contains newName = true
    · rw [if_pos hname, if_pos (contains_reservedWords hname)]
      exact List.sublist_append_right _ _
    · rw [if_neg hname]
      exact List.nil_sublist _

/-- The conflicts that are found without the capabilities are found with them, in the same order. -/
theorem detectConflicts_sublist (lost : List Capability) (id : SymbolId) (newName : String)
    (occurrences : List Occurrence) :
    ((e.without lost).detectConflicts id newName occurrences).answer.Sublist
      (e.detectConflicts id newName occurrences).answer :=
  (shadowConflicts_sublist lost id newName [] occurrences).append
    (reservedConflicts_sublist lost newName)

/-! ## Plans -/

/-- A plan is made without the capabilities as well, with the same edit. -/
theorem plan_without (lost : List Capability) {plan : RenamePlan} (h : e.Planned r plan) :
    ∃ plan', (e.without lost).Planned r plan' ∧ plan.Relaxed plan' := by
  obtain ⟨hname, hexists, hne, occurrences, hocc, hfree, rfl⟩ := plan_eq_ok.mp h
  have hsublist := detectConflicts_sublist (e := e) lost r.symbolId r.newName occurrences
  refine ⟨_, plan_eq_ok.mpr ⟨hname, ?_, hne, occurrences, hocc, ?_, rfl⟩, ⟨rfl, rfl, hsublist⟩⟩
  · -- A symbol that nobody can tell about counts as one that exists.
    change ((e.analyzer.hasSymbol r.symbolId).without lost .hasSymbol).orDefault true = _
    cases Answer.without_eq lost .hasSymbol (e.analyzer.hasSymbol r.symbolId) with
    | inl hkept => rw [hkept, hexists]
    | inr hlost => rw [hlost, Answer.orDefault]
  · rw [List.any_eq_false] at hfree ⊢
    intro c hc
    exact hfree c (hsublist.subset hc)

/-- So are several plans. -/
theorem planned_without (lost : List Capability) {plans : List RenamePlan}
    (h : List.Forall₂ e.Planned renames plans) :
    ∃ plans', List.Forall₂ (e.without lost).Planned renames plans' ∧
      List.Forall₂ RenamePlan.Relaxed plans plans' := by
  induction h with
  | nil => exact ⟨[], .nil, .nil⟩
  | cons hplanned _ ih =>
    obtain ⟨plan', hplan', hrelaxed⟩ := plan_without lost hplanned
    obtain ⟨plans', hplans', hrest⟩ := ih
    exact ⟨plan' :: plans', .cons hplan' hplans', .cons hrelaxed hrest⟩

/-- The edits of such plans together are the same. -/
theorem mergedEdit_relaxed {plans plans' : List RenamePlan}
    (h : List.Forall₂ RenamePlan.Relaxed plans plans') :
    Batch.mergedEdit plans' = Batch.mergedEdit plans := by
  unfold Batch.mergedEdit
  congr 1
  induction h with
  | nil => rfl
  | cons hrelaxed _ ih => rw [List.flatMap_cons, List.flatMap_cons, hrelaxed.edit, ih]

/-- What is planned with an analyzer is planned with what is left of it after any of its checking
    capabilities are lost. A single rename keeps its edit, and its notices are some of those that
    it had, in their order; a batch keeps its edit, and each of its plans is such a plan. -/
theorem planning_without (e : Engine) (lost : List Capability) :
    (∀ r plan, (e.plan r).result = .ok plan →
      ∃ plan', ((e.without lost).plan r).result = .ok plan' ∧ plan.Relaxed plan') ∧
    (∀ renames batch, (e.planBatch renames).result = .ok batch →
      ∃ batch', ((e.without lost).planBatch renames).result = .ok batch' ∧
        batch'.edit = batch.edit ∧ List.Forall₂ RenamePlan.Relaxed batch.plans batch'.plans) := by
  refine ⟨fun r plan h => plan_without lost h, fun renames batch h => ?_⟩
  obtain ⟨hconsistent, hplans, hedit, hvalid⟩ := planBatch_eq_ok_iff.mp h
  obtain ⟨plans', hplans', hrelaxed⟩ := planned_without lost hplans
  -- The checks of the batch as a whole look at the requests and at the edit, which are the same.
  have hedit' : batch.edit = Batch.mergedEdit plans' := by rw [hedit, mergedEdit_relaxed hrelaxed]
  exact ⟨⟨plans', batch.edit⟩, planBatch_eq_ok_iff.mpr ⟨hconsistent, hplans', hedit', hvalid⟩, rfl,
    hrelaxed⟩

/-! ## An analyzer that fails -/

/-- The engine that knows where two variables occur, and whose analyzer fails when it is asked about
    names and words. -/
def doubtingTwo : Engine :=
  { analyzer := AnalyzerTables.analyzer
      { symbols := some [hp, mp]
        occurrences := some [(hp, [⟨⟨"src/a.gml"⟩, 0, 2, none, .definition⟩]),
          (mp, [⟨⟨"src//a.gml"⟩, 3, 5, none, .definition⟩])]
        failing := [.lookup, .reservedKeywords] } }

/-- What is noticed about a new name. -/
def doubts (newName path : String) : List Conflict :=
  [.analysisError s!"lookup of '{newName}' failed: lookup failed: stub failure" (some ⟨path⟩),
    .analysisError
      "reserved keyword query failed: get_reserved_keywords failed: stub failure" none]

/-- The plan for the first of the two variables. -/
def doubtfulPlan : RenamePlan :=
  ⟨hp, "hp", "life", ⟨[⟨⟨"src/a.gml"⟩, 0, 2, "life"⟩]⟩, doubts "life" "src/a.gml"⟩

/-- The rename is planned, with two notices. -/
theorem planned_doubtfulPlan : doubtingTwo.Planned ⟨hp, "life"⟩ doubtfulPlan :=
  Except.toOption_eq_some.mp (by decide +kernel)

/-- The batch is planned, with two notices for each rename. -/
theorem planBatch_doubtingTwo :
    (doubtingTwo.planBatch [⟨hp, "life"⟩, ⟨mp, "mana"⟩]).result =
      .ok { twoPlan with plans := [doubtfulPlan,
        ⟨mp, "mp", "mana", ⟨[⟨⟨"src//a.gml"⟩, 3, 5, "mana"⟩]⟩, doubts "mana" "src//a.gml"⟩] } := by
  obtain ⟨hconsistent, -, -, hvalid⟩ := planBatch_eq_ok_iff.mp planBatch_two
  refine planBatch_eq_ok_iff.mpr
    ⟨hconsistent, .cons planned_doubtfulPlan (.cons ?_ .nil), rfl, hvalid⟩
  exact Except.toOption_eq_some.mp (by decide +kernel)

/-- Without lookups the rename and the batch are planned as well. -/
theorem planning_without_doubtingTwo :
    (∃ plan', (doubtingTwo.plan ⟨hp, "life"⟩).result = .ok doubtfulPlan ∧
      ((doubtingTwo.without [.lookup, .hasSymbol]).plan ⟨hp, "life"⟩).result = .ok plan' ∧
      doubtfulPlan.Relaxed plan') ∧
    ∃ batch batch', (doubtingTwo.planBatch [⟨hp, "life"⟩, ⟨mp, "mana"⟩]).result = .ok batch ∧
      ((doubtingTwo.without [.lookup, .hasSymbol]).planBatch
        [⟨hp, "life"⟩, ⟨mp, "mana"⟩]).result = .ok batch' ∧
      batch'.edit = twoPlan.edit := by
  obtain ⟨hsingle, hbatch⟩ := planning_without doubtingTwo [.lookup, .hasSymbol]
  obtain ⟨plan', hplan', hrelaxed⟩ := hsingle _ _ planned_doubtfulPlan
  obtain ⟨batch', hbatch', hedit, -⟩ := hbatch _ _ planBatch_doubtingTwo
  exact ⟨⟨plan', planned_doubtfulPlan, hplan', hrelaxed⟩, _, batch', planBatch_doubtingTwo,
    hbatch', hedit⟩

end Engine
end HotRename
