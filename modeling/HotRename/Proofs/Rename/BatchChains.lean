import HotRename.Proofs.Rename.Batch

/-!
# Circular chains of renames

A batch may hold chains of renames, in which one symbol gets the identifier that another one gives
up. A chain that leads back to its start cannot be carried out. The search for such chains walks
over a table of the requests, from the symbols that are renamed to identifiers that may be nobody's.
Main statements:

* `checkChains_eq_error_iff`       the refusal names the cycle that is found first
* `isCycle_of_mem_chainCycles`     what is found goes round by requests of the batch
* `planBatch_eq_circular_iff`      no other step of a plan gives this refusal
* `planBatch_circular`             which batches are refused, and what the refusal names
-/

namespace HotRename

namespace Batch

variable {renames : List RenameRequest} {cycle : List SymbolId}

/-- The refusal names the cycle that is found first. -/
theorem checkChains_eq_error_iff :
    checkChains renames = .error (.circularRename cycle) ↔
      (chainCycles renames).head? = some cycle := by
  unfold checkChains
  split
  · rename_i hnil
    simp [hnil]
  · rename_i hcons
    simp [hcons]

/-- A batch whose requests are in order one by one can be refused for a chain only. -/
theorem check_eq_circular_iff (hnames : ∀ r ∈ renames, Identifier.validate r.newName = .ok ())
    (hsources : (renames.map RenameRequest.symbolId).Nodup)
    (htargets : (renames.map RenameRequest.newName).Nodup) :
    check renames = .error (.circularRename cycle) ↔ (chainCycles renames).head? = some cycle := by
  have hnames' : checkNames renames = .ok () :=
    checkNames_eq_ok_iff.mpr fun r hr => Identifier.validate_eq_ok_iff.mp (hnames r hr)
  have hsources' : checkSources [] renames = .ok () :=
    checkSources_eq_ok_iff.mpr ⟨hsources, fun _ _ => List.not_mem_nil⟩
  unfold check
  split
  · -- Without requests there is no chain either.
    rename_i hempty
    rw [List.isEmpty_iff.mp hempty]
    exact ⟨nofun, nofun⟩
  · rw [hnames', hsources', checkTargets_eq_ok_iff.mpr htargets]
    simp only [Except.ok_bind]
    exact checkChains_eq_error_iff

/-- What is found goes round: each member is renamed by a request of the batch to the next one. -/
theorem isCycle_of_mem_chainCycles (hsources : (renames.map RenameRequest.symbolId).Nodup)
    (h : cycle ∈ chainCycles renames) :
    ∃ first others, cycle = first :: others ++ [first] ∧ (first :: others).Nodup ∧
      cycle.IsChain fun a b => ∃ r ∈ renames, r.symbolId = a ∧ r.targetId = b := by
  obtain ⟨hcycle, -⟩ := detectCycles_isCycle _ h
  obtain ⟨first, others, rfl, hwalk⟩ := hcycle.closed
  have hnodup := hcycle.nodup
  rw [List.dropLast_concat] at hnodup
  refine ⟨first, others, rfl, hnodup, ?_⟩
  exact hwalk.imp fun a b hab => (mem_tableSuccessors_iff hsources).mp hab

end Batch

namespace Engine

variable {e : Engine} {renames : List RenameRequest} {cycle : List SymbolId}

/-- A single rename is not refused for a chain. -/
theorem plan_ne_circular {r : RenameRequest} :
    (e.plan r).result ≠ .error (.circularRename cycle) := by
  simp [plan, symbolExists, occurrencesOf, Except.bind_eq_error, Except.mapError_eq_error,
    ite_eq_iff]

/-- Nor is one of several for its own sake. -/
theorem planEach_ne_circular : (e.planEach renames).result ≠ .error (.circularRename cycle) := by
  induction renames with
  | nil => nofun
  | cons r rs ih =>
    simp only [planEach, Inquiry.result_bind, Inquiry.result_pure, ne_eq, Except.bind_eq_error]
    rintro (h | ⟨_, -, h | ⟨_, -, h⟩⟩)
    · exact plan_ne_circular h
    · exact ih h
    · cases h

/-- Only the checks of the batch as a whole refuse it for a chain. -/
theorem planBatch_eq_circular_iff :
    (e.planBatch renames).result = .error (.circularRename cycle) ↔
      Batch.check renames = .error (.circularRename cycle) := by
  simp only [planBatch, Inquiry.result_bind, Inquiry.result_ofExcept, Inquiry.result_ite,
    Inquiry.result_pure, Except.bind_eq_error, Except.mapError_eq_error, id_eq, exists_eq_right]
  refine or_iff_left ?_
  -- What follows plans the requests one by one and validates their edits.
  rintro ⟨_, -, h | ⟨plans, -, h⟩⟩
  · exact planEach_ne_circular h
  · split at h
    · cases h
    · rcases Except.bind_eq_error.mp h with h | ⟨_, -, h⟩
      · obtain ⟨_, -, h⟩ := Except.mapError_eq_error.mp h
        cases h
      · cases h

/-- Let the new names of a batch be names, no symbol be renamed twice and no name be given twice.
    Then the batch is refused for a circular chain exactly if one or more of its requests lead each
    to the symbol of the next and the last to that of the first; a single one of these is a rename
    to the current name. The refusal names such a chain: it ends with the identifier that it starts
    with, names every other member once, and goes from each to the next by a request. -/
theorem planBatch_circular (e : Engine) {renames : List RenameRequest}
    (hnames : ∀ r ∈ renames, Identifier.validate r.newName = .ok ())
    (hsources : (renames.map RenameRequest.symbolId).Nodup)
    (htargets : (renames.map RenameRequest.newName).Nodup) :
    ((∃ cycle, (e.planBatch renames).result = .error (.circularRename cycle)) ↔
      ∃ chain ⊆ renames, Batch.IsClosedChain chain) ∧
    ∀ cycle, (e.planBatch renames).result = .error (.circularRename cycle) →
      ∃ first others, cycle = first :: others ++ [first] ∧ (first :: others).Nodup ∧
        cycle.IsChain fun a b => ∃ r ∈ renames, r.symbolId = a ∧ r.targetId = b := by
  -- The first cycle that is found is the one that is reported.
  have hfound : ∀ cycle, (e.planBatch renames).result = .error (.circularRename cycle) ↔
      (Batch.chainCycles renames).head? = some cycle := fun cycle =>
    planBatch_eq_circular_iff.trans (Batch.check_eq_circular_iff hnames hsources htargets)
  constructor
  · have hnone := Batch.chainCycles_eq_nil_iff hsources
    rw [← not_iff_not] at hnone
    simp only [not_forall, not_not, exists_prop] at hnone
    rw [← hnone, ← ne_eq, ← List.isSome_head?, Option.isSome_iff_exists]
    exact exists_congr hfound
  · intro cycle h
    exact Batch.isCycle_of_mem_chainCycles hsources (List.mem_of_head? ((hfound cycle).mp h))

/-- A rename that ends at a name of its own, and three that go round. -/
def roundTrip : List RenameRequest :=
  [⟨⟨["p", "script"], "a"⟩, "b"⟩, ⟨⟨["p", "script"], "x"⟩, "y"⟩, ⟨⟨["p", "script"], "b"⟩, "c"⟩,
    ⟨⟨["p", "script"], "c"⟩, "a"⟩]

/-- The three that go round are found although another request stands among them. -/
theorem planBatch_circular_roundTrip :
    let e : Engine := { analyzer := .unavailable }
    ∃ cycle, (e.planBatch roundTrip).result = .error (.circularRename cycle) ∧
      ∃ first others, cycle = first :: others ++ [first] ∧ (first :: others).Nodup ∧
        cycle.IsChain fun a b => ∃ r ∈ roundTrip, r.symbolId = a ∧ r.targetId = b := by
  intro e
  have hnames : ∀ r ∈ roundTrip, Identifier.validate r.newName = .ok () := by decide
  obtain ⟨hrefused, hreport⟩ := planBatch_circular e hnames (by decide) (by decide)
  obtain ⟨cycle, hcycle⟩ :=
    hrefused.mpr ⟨roundTrip.eraseIdx 1, List.eraseIdx_subset, _, _, rfl, by decide⟩
  exact ⟨cycle, hcycle, hreport cycle hcycle⟩

-- A rename to the current name goes round by itself.
example : Batch.check [⟨⟨["p", "script"], "a"⟩, "a"⟩] =
    .error (.circularRename [⟨["p", "script"], "a"⟩, ⟨["p", "script"], "a"⟩]) := by
  cbv

end Engine
end HotRename
