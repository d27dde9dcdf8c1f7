import HotRename.Proofs.Rename.Execute
import HotRename.Rename.Impact

/-!
# Plan, impact and safety agree

Planning a rename, finding out its impact and judging its safety make the same checks, each in its
own order. An impact that is found out has answers to all of them: the symbol is missing, or its
occurrences are known and with them the conflicts. Main statements:

* `prevents_of_mem_detectConflicts`  of the conflicts found, the blocking ones prevent a rename
* `impact_agrees`  an impact is valid if the rename can be planned, and its verdict is the one on
  the safety of the rename
-/

namespace HotRename

/-- No kind of symbol is both unsafe and beyond repair. -/
theorem Safety.ofKind_safe_or_canAutoFix (kind : SymbolKind) :
    (ofKind kind).safe = true ∨ (ofKind kind).canAutoFix = true := by
  unfold ofKind
  split <;> simp

namespace Engine

variable {e : Engine} {r : RenameRequest} {occurrences : List Occurrence}

/-! ## Conflicts -/

/-- A conflict of a kind that the analyzer's answers give rise to. -/
def IsFinding (c : Conflict) : Prop :=
  c.kind = .shadow ∨ c.kind = .reserved ∨ c.kind = .analysisError

/-- What the search for shadowed names reports are findings. -/
theorem isFinding_of_mem_shadowConflicts {id : SymbolId} {newName : String}
    {checked : List (Option String)} {c : Conflict}
    (h : c ∈ (e.shadowConflicts id newName checked occurrences).answer) : IsFinding c := by
  fun_induction shadowConflicts e id newName checked occurrences with
  | case1 => cases h
  | case2 checked o os hchecked ih => exact ih h
  | case3 checked o os hchecked ih =>
    -- What the name means in this scope decides whether a conflict is added.
    rw [Asked.answer_bind, Asked.answer_ask] at h
    split at h
    · cases h
    · next existing hlookup =>
      rw [Asked.answer_bind] at h
      split at h
      · exact ih h
      · rcases List.mem_cons.mp h with rfl | h
        · exact .inl rfl
        · exact ih h
    · exact ih h
    · next err hlookup =>
      rcases List.mem_cons.mp h with rfl | h
      · exact .inr (.inr rfl)
      · exact ih h

/-- So is what the search for reserved words reports. -/
theorem isFinding_of_mem_reservedConflicts {newName : String} {c : Conflict}
    (h : c ∈ (e.reservedConflicts newName).answer) : IsFinding c := by
  -- An analyzer that does not list its words is reported as a failure.
  have hfailures : ∀ c ∈ e.reservedWords.answer.2, IsFinding c := by
    unfold reservedWords
    rw [Asked.answer_bind, Asked.answer_ask]
    intro c hc
    split at hc
    · cases hc
    · cases List.mem_singleton.mp hc
      exact .inr (.inr rfl)
  rw [reservedConflicts, Asked.answer_bind] at h
  rcases List.mem_append.mp h with h | h
  · exact hfailures c h
  · split at h
    · cases List.mem_singleton.mp h
      exact .inr (.inl rfl)
    · cases h

/-- Of the conflicts found, those that keep the rename from being planned are the blocking ones. -/
theorem prevents_of_mem_detectConflicts {id : SymbolId} {newName : String} {c : Conflict}
    (h : c ∈ (e.detectConflicts id newName occurrences).answer) :
    Impact.prevents c = c.isBlocking := by
  have hfinding : IsFinding c := by
    rcases List.mem_append.mp h with h | h
    · exact isFinding_of_mem_shadowConflicts h
    · exact isFinding_of_mem_reservedConflicts h
  unfold Impact.prevents Conflict.isBlocking
  rcases hfinding with hkind | hkind | hkind <;> rw [hkind] <;> rfl

/-! ## Plan and verdict -/

/-- The checks that planning makes when the symbol exists and its occurrences are known. -/
def Passes (e : Engine) (r : RenameRequest) (occurrences : List Occurrence) : Prop :=
  Identifier.validate r.newName = .ok () ∧
    (e.detectConflicts r.symbolId r.newName occurrences).answer.any Conflict.isBlocking = false

/-- A rename can be planned exactly if the symbol exists, the name is new and the checks pass. -/
theorem exists_plan_iff :
    (∃ plan, (e.plan r).result = .ok plan) ↔
      (e.analyzer.hasSymbol r.symbolId).orDefault true = .ok true ∧ r.newName ≠ r.oldName ∧
      ∃ occurrences, (e.analyzer.occurrences r.symbolId).orDefault [] = .ok occurrences ∧
        e.Passes r occurrences := by
  constructor
  · rintro ⟨plan, hplan⟩
    obtain ⟨hvalid, hexists, hname, occurrences, hocc, hfree, -⟩ := plan_eq_ok.mp hplan
    exact ⟨hexists, hname, occurrences, hocc, hvalid, hfree⟩
  · rintro ⟨hexists, hname, occurrences, hocc, hvalid, hfree⟩
    exact ⟨_, plan_eq_ok.mpr ⟨hvalid, hexists, hname, occurrences, hocc, hfree, rfl⟩⟩

/-- A rename of a symbol that does not exist is unsafe. -/
theorem safety_missing (hexists : (e.analyzer.hasSymbol r.symbolId).orDefault true = .ok false) :
    ∃ verdict, (e.safety r).result = .ok verdict ∧ verdict.safe = false ∧
      verdict.canAutoFix = false := by
  unfold safety
  split
  · exact ⟨_, rfl, rfl, rfl⟩
  · rw [Inquiry.result_bind, symbolExists, Inquiry.result_ask, hexists]
    exact ⟨_, rfl, rfl, rfl⟩

/-- The kind of the symbol decides when the checks pass, and otherwise the rename is unsafe. -/
theorem safety_existing (hexists : (e.analyzer.hasSymbol r.symbolId).orDefault true = .ok true)
    (hocc : (e.analyzer.occurrences r.symbolId).orDefault [] = .ok occurrences) :
    ∃ verdict, (e.safety r).result = .ok verdict ∧
      (e.Passes r occurrences → verdict = .ofKind r.symbolId.kind) ∧
      (¬ e.Passes r occurrences → verdict.safe = false ∧ verdict.canAutoFix = false) := by
  unfold safety
  split
  · next err hvalid =>
    exact ⟨_, rfl, fun h => absurd (hvalid.symm.trans h.1) nofun, fun _ => ⟨rfl, rfl⟩⟩
  · next hvalid =>
    simp only [symbolExists, occurrencesOf, Inquiry.result_bind, Inquiry.result_ask,
      Inquiry.result_lift, Inquiry.result_ite, Inquiry.result_pure, hexists, hocc,
      Except.mapError_ok, Except.ok_bind, if_true]
    split
    -- No finding is blocking, so the kind of the symbol decides.
    · next hnone =>
      have hfree : (e.detectConflicts r.symbolId r.newName occurrences).answer.any
          Conflict.isBlocking = false := by
        simpa using hnone
      exact ⟨_, rfl, fun _ => rfl, fun h => absurd ⟨hvalid, hfree⟩ h⟩
    · next hsome =>
      refine ⟨_, rfl, fun h => absurd ?_ hsome, fun _ => ⟨rfl, rfl⟩⟩
      simpa using h.2

/-! ## Impact -/

/-- No conflict of an impact keeps the rename from being planned if the checks pass. -/
theorem any_prevents_iff {naming : List Conflict}
    (hnaming : naming.any Impact.prevents = false ↔ Identifier.validate r.newName = .ok ()) :
    (naming ++ (e.detectConflicts r.symbolId r.newName occurrences).answer).any Impact.prevents =
      false ↔ e.Passes r occurrences := by
  have hfound : (e.detectConflicts r.symbolId r.newName occurrences).answer.any Impact.prevents =
      (e.detectConflicts r.symbolId r.newName occurrences).answer.any Conflict.isBlocking := by
    rw [Bool.eq_iff_iff, List.any_eq_true, List.any_eq_true]
    refine exists_congr fun c => and_congr_right fun hc => ?_
    rw [prevents_of_mem_detectConflicts hc]
  rw [List.any_append, hfound, Bool.or_eq_false_iff, hnaming, Passes]

/-- What an impact that is found out says: the symbol is missing, or the impact is valid if the
    name is new and the checks pass. -/
theorem impact_ok {impact : RenameImpact} (h : (e.impact r).result = .ok impact) :
    ((e.analyzer.hasSymbol r.symbolId).orDefault true = .ok false ∧ impact.valid = false) ∨
      ((e.analyzer.hasSymbol r.symbolId).orDefault true = .ok true ∧
        ∃ occurrences, (e.analyzer.occurrences r.symbolId).orDefault [] = .ok occurrences ∧
          (impact.valid = true ↔ r.newName ≠ r.oldName ∧ e.Passes r occurrences) ∧
          (impact.valid = true → impact.hotReload = some (.ofKind r.symbolId.kind))) := by
  rw [Engine.impact, Inquiry.result_bind, symbolExists, Inquiry.result_ask] at h
  obtain ⟨found, hexists, h⟩ := Except.bind_eq_ok.mp h
  rw [Except.mapError_eq_ok] at hexists
  cases found with
  | false =>
    cases h
    exact .inl ⟨hexists, rfl⟩
  | true =>
    simp only [if_true, occurrencesOf, Inquiry.result_bind, Inquiry.result_ask,
      Inquiry.result_lift, Inquiry.result_pure, Except.ok_bind] at h
    obtain ⟨occurrences, hocc, h⟩ := Except.bind_eq_ok.mp h
    obtain ⟨dependents, -, h⟩ := Except.bind_eq_ok.mp h
    cases h
    refine .inr ⟨hexists, occurrences, Except.mapError_eq_ok.mp hocc, ?_,
      fun hvalid => if_pos hvalid⟩
    simp only [Bool.and_eq_true, Bool.not_eq_true', decide_eq_false_iff_not]
    -- The conflict for the name is there exactly if the name is refused.
    refine and_congr ne_comm (any_prevents_iff ?_)
    cases Identifier.validate r.newName with
    | ok u => exact ⟨fun _ => rfl, fun _ => rfl⟩
    | error err =>
      constructor
      · intro h
        cases h
      · intro h
        cases h

/-- An impact that is found out is valid exactly if the rename can be planned. If the name is new,
    the safety of the rename is judged as well: it is unsafe beyond repair exactly if the rename
    cannot be planned, and otherwise the verdict is that of the impact. -/
theorem impact_agrees {impact : RenameImpact} (h : (e.impact r).result = .ok impact) :
    (impact.valid = true ↔ ∃ plan, (e.plan r).result = .ok plan) ∧
      (r.newName ≠ r.oldName →
        ∃ verdict, (e.safety r).result = .ok verdict ∧
          (verdict.safe = false ∧ verdict.canAutoFix = false ↔
            ∃ err, (e.plan r).result = .error err) ∧
          ((∃ plan, (e.plan r).result = .ok plan) → impact.hotReload = some verdict)) := by
  have hfails : (∃ err, (e.plan r).result = .error err) ↔
      ¬ ∃ plan, (e.plan r).result = .ok plan := by
    cases (e.plan r).result <;> simp
  rw [hfails]
  rcases impact_ok h with ⟨hexists, hvalid⟩ | ⟨hexists, occurrences, hocc, hvalid, hreload⟩
  · -- The symbol is missing, so there is no plan.
    have hnone : ¬ ∃ plan, (e.plan r).result = .ok plan := by
      rw [exists_plan_iff, hexists]
      exact fun h => nomatch h.1
    refine ⟨by simp [hvalid, hnone], fun _ => ?_⟩
    obtain ⟨verdict, hsafety, hrefused⟩ := safety_missing hexists
    exact ⟨verdict, hsafety, iff_of_true hrefused hnone, fun hplan => absurd hplan hnone⟩
  -- The symbol exists, and planning makes the same checks as the impact.
  · have hplan : (∃ plan, (e.plan r).result = .ok plan) ↔
        r.newName ≠ r.oldName ∧ e.Passes r occurrences := by
      rw [exists_plan_iff, hexists, hocc]
      simp
    refine ⟨hvalid.trans hplan.symm, fun hname => ?_⟩
    obtain ⟨verdict, hsafety, hpasses, hfails⟩ := safety_existing hexists hocc
    rw [hplan]
    refine ⟨verdict, hsafety, ⟨fun hrefused hplan => ?_, fun hnot => ?_⟩, fun hplan => ?_⟩
    · -- The verdict on a kind of symbol is safe or can be repaired.
      rw [hpasses hplan.2] at hrefused
      rcases Safety.ofKind_safe_or_canAutoFix r.symbolId.kind with hsafe | hfix
      · exact Bool.false_ne_true (hrefused.1.symm.trans hsafe)
      · exact Bool.false_ne_true (hrefused.2.symm.trans hfix)
    · exact hfails fun h => hnot ⟨hname, h⟩
    · rw [hpasses hplan.2]
      exact hreload (hvalid.mpr hplan)

/-- The analyzer cannot say what the new name means, which is a conflict that is only reported. -/
theorem impact_agrees_hp :
    ∃ impact, ((knowing hp hpOccurrences [.lookup]).impact ⟨hp, "life"⟩).result = .ok impact ∧
      impact.conflicts ≠ [] ∧
      (∃ plan, ((knowing hp hpOccurrences [.lookup]).plan ⟨hp, "life"⟩).result = .ok plan) ∧
      ∃ verdict, ((knowing hp hpOccurrences [.lookup]).safety ⟨hp, "life"⟩).result = .ok verdict ∧
        impact.hotReload = some verdict := by
  -- The impact is computed as far as the statement needs it.
  have heval : (((knowing hp hpOccurrences [.lookup]).impact ⟨hp, "life"⟩).result.map
      fun impact => (impact.valid, impact.conflicts.isEmpty)).toOption = some (true, false) := by
    decide +kernel
  obtain ⟨impact, himpact, hfields⟩ := Except.map_eq_ok.mp (Except.toOption_eq_some.mp heval)
  obtain ⟨hvalid, hconflicts⟩ := Prod.mk.inj hfields
  obtain ⟨hplan, hsafety⟩ := impact_agrees himpact
  have hplanned := hplan.mp hvalid
  obtain ⟨verdict, hverdict, -, hreload⟩ := hsafety (by decide)
  exact ⟨impact, himpact, List.isEmpty_eq_false_iff.mp hconflicts, hplanned, verdict, hverdict,
    hreload hplanned⟩

end Engine
end HotRename
