import HotRename.Proofs.Graph.CyclesFound
import HotRename.Proofs.List
import HotRename.Proofs.Rename.Inquiry
import HotRename.Proofs.Symbol.Identifier
import HotRename.Rename.Batch

/-!
# Which batches can be planned

The checks of a batch as a whole are stated without the way in which they are made: `Consistent`
speaks of the requests only, and of chains of them instead of walks over a table. A batch that is
consistent is planned request by request. Main statements:

* `chainCycles_eq_nil_iff`  a cycle is found exactly if some chain of requests closes
* `check_eq_ok_iff`         the checks accept the consistent batches
* `planEach_eq_ok_iff`      every request is planned on its own
* `planBatch_exact`         when a batch is planned, what its plan is, and what is asked
-/

namespace HotRename

namespace Batch

variable {renames : List RenameRequest}

/-- Each request gives its symbol the identifier of the symbol that the next one renames, and the
    last one gives that of the first. -/
def IsClosedChain (chain : List RenameRequest) : Prop :=
  ∃ first rest, chain = first :: rest ∧
    (chain ++ [first]).IsChain fun r r' => r.targetId = r'.symbolId

/-- Every request of a closed chain gives its symbol the identifier of a symbol that is renamed. -/
theorem IsClosedChain.exists_next {chain : List RenameRequest} (h : IsClosedChain chain)
    {r : RenameRequest} (hr : r ∈ chain) : ∃ r' ∈ chain, r.targetId = r'.symbolId := by
  obtain ⟨first, rest, rfl, hchain⟩ := h
  obtain ⟨r', hr', hlink⟩ := exists_next_of_isChain hchain hr
  refine ⟨r', ?_, hlink⟩
  simpa [or_comm] using hr'

/-- A closed chain has a request that leads to another of its requests. -/
theorem IsClosedChain.exists_link {chain : List RenameRequest} (h : IsClosedChain chain) :
    ∃ r ∈ chain, ∃ r' ∈ chain, r.targetId = r'.symbolId := by
  obtain ⟨first, rest, rfl, -⟩ := id h
  exact ⟨first, List.mem_cons_self, h.exists_next List.mem_cons_self⟩

/-- What is asked of the requests of a batch as a whole. -/
structure Consistent (renames : List RenameRequest) : Prop where
  ne_nil : renames ≠ []
  names : ∀ r ∈ renames, Identifier.isName r.newName.toList = true
  sources : (renames.map RenameRequest.symbolId).Nodup
  targets : (renames.map RenameRequest.newName).Nodup
  chains : ∀ chain ⊆ renames, ¬ IsClosedChain chain

/-! ## Names -/

/-- The names pass exactly if each of them is a name. -/
theorem checkNames_eq_ok_iff :
    checkNames renames = .ok () ↔ ∀ r ∈ renames, Identifier.isName r.newName.toList = true := by
  induction renames with
  | nil => simp [checkNames]
  | cons r rs ih =>
    rw [checkNames, Except.unit_bind_eq_ok, Except.mapError_eq_ok, Identifier.validate_eq_ok_iff,
      ih, List.forall_mem_cons]

/-- The symbols pass exactly if none of them is renamed twice. -/
theorem checkSources_eq_ok_iff {seen : List SymbolId} :
    checkSources seen renames = .ok () ↔
      (renames.map RenameRequest.symbolId).Nodup ∧ ∀ r ∈ renames, r.symbolId ∉ seen := by
  induction renames generalizing seen with
  | nil => simp [checkSources]
  | cons r rs ih =>
    rw [checkSources]
    split
    · rename_i hseen
      simp only [reduceCtorEq, false_iff]
      exact fun h => h.2 r List.mem_cons_self hseen
    · rename_i hnew
      -- That the rest avoids the head too says that the head is not renamed again.
      simp only [ih, List.map_cons, List.nodup_cons, List.mem_map, List.mem_cons, not_or,
        not_exists, not_and, forall_eq_or_imp]
      constructor
      · rintro ⟨hnodup, hrest⟩
        exact ⟨⟨fun r' hr' => (hrest r' hr').1, hnodup⟩, hnew, fun r' hr' => (hrest r' hr').2⟩
      · rintro ⟨⟨hfirst, hnodup⟩, -, hrest⟩
        exact ⟨hnodup, fun r' hr' => ⟨hfirst r' hr', hrest r' hr'⟩⟩

/-- As many symbols get a name as there are requests for it. -/
theorem length_symbolsNamed (renames : List RenameRequest) (name : String) :
    (symbolsNamed renames name).length = (renames.map RenameRequest.newName).count name := by
  rw [symbolsNamed, List.length_map, List.count, List.countP_map, List.countP_eq_length_filter]
  rfl

/-- The new names pass exactly if none of them is given twice. -/
theorem checkTargets_eq_ok_iff :
    checkTargets renames = .ok () ↔ (renames.map RenameRequest.newName).Nodup := by
  have hnone : checkTargets renames = .ok () ↔
      renames.find? (fun r => 1 < (symbolsNamed renames r.newName).length) = none := by
    unfold checkTargets
    split <;> simp_all
  rw [hnone, List.find?_eq_none, List.nodup_iff_count_le_one]
  simp only [length_symbolsNamed, decide_eq_true_eq, Nat.not_lt]
  constructor
  · intro h name
    -- The search looks at names that are given only; all others are given to no symbol.
    by_cases hname : name ∈ renames.map RenameRequest.newName
    · obtain ⟨r, hr, rfl⟩ := List.mem_map.mp hname
      exact h r hr
    · rw [List.count_eq_zero_of_not_mem hname]
      exact Nat.zero_le 1
  · exact fun h r _ => h r.newName

/-! ## Chains -/

/-- The table of the requests. -/
def table (renames : List RenameRequest) : List (SymbolId × List SymbolId) :=
  renames.map fun r => (r.symbolId, [r.targetId])

/-- When no symbol is renamed twice, the table leads from each symbol to the identifier that it
    gets and nowhere else. -/
theorem mem_tableSuccessors_iff (hnodup : (renames.map RenameRequest.symbolId).Nodup)
    {a b : SymbolId} :
    b ∈ tableSuccessors (table renames) a ↔ ∃ r ∈ renames, r.symbolId = a ∧ r.targetId = b := by
  unfold tableSuccessors
  cases hfound : (table renames).reverse.find? fun row => row.1 = a with
  | none =>
    simp only [Option.map_none, Option.getD_none, List.not_mem_nil, false_iff]
    rintro ⟨r, hr, hsource, -⟩
    rw [List.find?_eq_none] at hfound
    exact hfound (r.symbolId, [r.targetId])
      (List.mem_reverse.mpr (List.mem_map.mpr ⟨r, hr, rfl⟩)) (decide_eq_true hsource)
  | some row =>
    obtain ⟨r, hr, rfl⟩ := List.mem_map.mp (List.mem_reverse.mp (List.mem_of_find?_eq_some hfound))
    have hsource : r.symbolId = a := by simpa using List.find?_some hfound
    simp only [Option.map_some, Option.getD_some, List.mem_singleton]
    -- The last row of a symbol counts, and there is no other one.
    constructor
    · rintro rfl
      exact ⟨r, hr, hsource, rfl⟩
    · rintro ⟨r', hr', hsource', rfl⟩
      rw [List.inj_on_of_nodup_map hnodup hr' hr (hsource'.trans hsource.symm)]

section

variable (hnodup : (renames.map RenameRequest.symbolId).Nodup)
include hnodup

/-- A walk over the table is made by requests, one for each of its steps. -/
theorem exists_chain_of_walk {a b : SymbolId} {between : List SymbolId}
    (hwalk : (a :: between ++ [b]).IsChain fun x y => y ∈ tableSuccessors (table renames) x) :
    ∃ first rest, first :: rest ⊆ renames ∧ first.symbolId = a ∧
      ∀ last : RenameRequest, last.symbolId = b →
        (first :: rest ++ [last]).IsChain fun r r' => r.targetId = r'.symbolId := by
  -- What the last step leads to is left open, so that the walk may be closed.
  induction between generalizing a with
  | nil =>
    obtain ⟨hab, -⟩ := List.isChain_cons_cons.mp hwalk
    obtain ⟨r, hr, hsource, htarget⟩ := (mem_tableSuccessors_iff hnodup).mp hab
    refine ⟨r, [], by simpa using hr, hsource, fun last hlast => ?_⟩
    simp [htarget, hlast]
  | cons c between ih =>
    obtain ⟨hac, hwalk⟩ := List.isChain_cons_cons.mp hwalk
    obtain ⟨r, hr, hsource, htarget⟩ := (mem_tableSuccessors_iff hnodup).mp hac
    obtain ⟨first, rest, hsub, hfirst, hchain⟩ := ih hwalk
    refine ⟨r, first :: rest, List.cons_subset.mpr ⟨hr, hsub⟩, hsource, fun last hlast => ?_⟩
    exact List.isChain_cons_cons.mpr ⟨htarget.trans hfirst.symm, hchain last hlast⟩

/-- A chain of requests that closes is a closed walk over the table. -/
theorem isClosedWalk_of_isClosedChain {chain : List RenameRequest} (hsub : chain ⊆ renames)
    (hclosed : IsClosedChain chain) :
    ∃ r ∈ renames, OnCycle (tableSuccessors (table renames)) r.symbolId := by
  obtain ⟨first, rest, rfl, hchain⟩ := hclosed
  refine ⟨first, hsub List.mem_cons_self, ?_⟩
  have hwalk : IsClosedWalk (tableSuccessors (table renames))
      (first.symbolId :: rest.map RenameRequest.symbolId ++ [first.symbolId]) := by
    refine ⟨first.symbolId, rest.map RenameRequest.symbolId, rfl, ?_⟩
    -- The walk is through the symbols that the requests rename.
    have hmap : first.symbolId :: rest.map RenameRequest.symbolId ++ [first.symbolId] =
        (first :: rest ++ [first]).map RenameRequest.symbolId := by simp
    rw [hmap, List.isChain_map]
    refine List.IsChain.imp_of_mem_imp (fun r r' hr _ htarget => ?_) hchain
    have hmem : r ∈ renames := by
      refine hsub ?_
      simpa [or_comm] using hr
    exact (mem_tableSuccessors_iff hnodup).mpr ⟨r, hmem, rfl, htarget⟩
  exact hwalk.onCycle (by simp)

/-- A cycle is found exactly if some chain of requests closes. -/
theorem chainCycles_eq_nil_iff :
    chainCycles renames = [] ↔ ∀ chain ⊆ renames, ¬ IsClosedChain chain := by
  have hfinite : FiniteReach (tableSuccessors (table renames))
      (renames.map RenameRequest.symbolId) :=
    .of_forall_mem _ ((table renames).flatMap Prod.snd) fun _ _ h => tableSuccessors_mem h
  have hfound : chainCycles renames ≠ [] ↔ _ := detectCycles_ne_nil_iff hfinite
  rw [← not_iff_not, ← ne_eq, hfound]
  simp only [not_forall, not_not, exists_prop]
  constructor
  · rintro ⟨a, -, hcycle⟩
    -- The walk may start at another symbol of the cycle than the search did.
    obtain ⟨between, a', between', hsplit, hwalk⟩ := hcycle.exists_isClosedWalk
    obtain ⟨first, rest, hsub, hfirst, hchain⟩ := exists_chain_of_walk hnodup hwalk
    exact ⟨first :: rest, hsub, first, rest, rfl, hchain first hfirst⟩
  · rintro ⟨chain, hsub, hclosed⟩
    obtain ⟨r, hr, hcycle⟩ := isClosedWalk_of_isClosedChain hnodup hsub hclosed
    exact ⟨r.symbolId, .root (List.mem_map.mpr ⟨r, hr, rfl⟩), hcycle⟩

end

/-- The chains pass exactly if no cycle is found. -/
theorem checkChains_eq_ok_iff : checkChains renames = .ok () ↔ chainCycles renames = [] := by
  unfold checkChains
  split <;> simp_all

/-! ## All checks -/

/-- The checks accept the consistent batches. -/
theorem check_eq_ok_iff : check renames = .ok () ↔ Consistent renames := by
  unfold check
  split
  · rename_i hempty
    simp only [List.isEmpty_iff] at hempty
    exact ⟨nofun, fun h => absurd hempty h.ne_nil⟩
  · rename_i hne
    have hne : renames ≠ [] := by simpa using hne
    simp only [Except.unit_bind_eq_ok]
    constructor
    · rintro ⟨hnames, hsources, htargets, hchains⟩
      -- That the search finds all chains is known only when no symbol is renamed twice.
      have hnodup := (checkSources_eq_ok_iff.mp hsources).1
      exact ⟨hne, checkNames_eq_ok_iff.mp hnames, hnodup, checkTargets_eq_ok_iff.mp htargets,
        (chainCycles_eq_nil_iff hnodup).mp (checkChains_eq_ok_iff.mp hchains)⟩
    · rintro ⟨-, hnames, hsources, htargets, hchains⟩
      exact ⟨checkNames_eq_ok_iff.mpr hnames, checkSources_eq_ok_iff.mpr ⟨hsources, by simp⟩,
        checkTargets_eq_ok_iff.mpr htargets,
        checkChains_eq_ok_iff.mpr ((chainCycles_eq_nil_iff hsources).mpr hchains)⟩

/-- A chain that ends at a name of its own is accepted. -/
example : check [⟨⟨["p", "script"], "a"⟩, "b"⟩, ⟨⟨["p", "script"], "b"⟩, "c"⟩] = .ok () := by
  cbv

end Batch

namespace Engine

variable {e : Engine} {renames : List RenameRequest}

/-- The plan answers the request. -/
def Planned (e : Engine) (r : RenameRequest) (plan : RenamePlan) : Prop :=
  (e.plan r).result = .ok plan

/-- The requests are planned exactly if each of them is. -/
theorem planEach_eq_ok_iff {plans : List RenamePlan} :
    (e.planEach renames).result = .ok plans ↔ List.Forall₂ e.Planned renames plans := by
  induction renames generalizing plans with
  | nil => simp [planEach, eq_comm]
  | cons r rs ih =>
    simp only [planEach, Inquiry.result_bind, Inquiry.result_pure, Except.bind_eq_ok, ih,
      List.forall₂_cons_left_iff, Except.ok.injEq]
    constructor
    · rintro ⟨p, hp, ps, hps, rfl⟩
      exact ⟨p, ps, hp, hps, rfl⟩
    · rintro ⟨p, ps, hp, hps, rfl⟩
      exact ⟨p, hp, ps, hps, rfl⟩

/-- Every plan of a batch answers one of its requests. -/
theorem exists_planned_of_mem {plans : List RenamePlan} {plan : RenamePlan}
    (h : List.Forall₂ e.Planned renames plans) (hmem : plan ∈ plans) :
    ∃ r ∈ renames, e.Planned r plan :=
  exists_of_forall₂ h.flip hmem

/-- The plans of a batch, and what is asked of their edits. -/
theorem planBatch_eq_ok_iff {plan : BatchPlan} :
    (e.planBatch renames).result = .ok plan ↔
      Batch.Consistent renames ∧ List.Forall₂ e.Planned renames plan.plans ∧
      plan.edit = Batch.mergedEdit plan.plans ∧
      (plan.edit.edits = [] ∨ plan.edit.validate = .ok ()) := by
  rw [planBatch, Inquiry.result_bind, Except.unit_bind_eq_ok, Inquiry.result_ofExcept,
    Except.mapError_eq_ok, Batch.check_eq_ok_iff]
  refine and_congr_right fun _ => ?_
  simp only [Inquiry.result_bind, Inquiry.result_ite, Inquiry.result_ofExcept,
    Inquiry.result_pure, Except.bind_eq_ok, planEach_eq_ok_iff]
  constructor
  · rintro ⟨plans, hplans, hmerged⟩
    split at hmerged
    -- A batch without edits is not checked for overlaps.
    · rename_i hempty
      cases hmerged
      exact ⟨hplans, rfl, .inl (List.isEmpty_iff.mp hempty)⟩
    · obtain ⟨hvalid, hmerged⟩ := Except.unit_bind_eq_ok.mp hmerged
      cases hmerged
      exact ⟨hplans, rfl, .inr (Except.mapError_eq_ok.mp hvalid)⟩
  · obtain ⟨plans, edit⟩ := plan
    dsimp only
    rintro ⟨hplans, rfl, hmerged⟩
    refine ⟨plans, hplans, ?_⟩
    split
    · rfl
    · rename_i hne
      rcases hmerged with hempty | hvalid
      · exact absurd (List.isEmpty_iff.mpr hempty) hne
      · rw [hvalid]
        rfl

/-- A batch that the checks refuse fails with their error, and nothing is asked about it. -/
theorem planBatch_refused {err : RenameError} (h : Batch.check renames = .error err) :
    (e.planBatch renames).run = pure (.error err) := by
  rw [planBatch, h]
  rfl

/-- A batch is planned exactly if its requests are consistent, each of them can be planned on its
    own, and the edits of all plans together are none or valid. Its plan holds these plans and
    their edits in the order of the requests. About requests that are not consistent nothing is
    asked. -/
theorem planBatch_exact (e : Engine) (renames : List RenameRequest) :
    (∀ plan, (e.planBatch renames).result = .ok plan ↔
      Batch.Consistent renames ∧ List.Forall₂ e.Planned renames plan.plans ∧
      plan.edit.edits = plan.plans.flatMap (fun p => p.edit.edits) ∧
      (plan.edit.edits = [] ∨ plan.edit.validate = .ok ())) ∧
    (¬ Batch.Consistent renames →
      (∃ err, (e.planBatch renames).result = .error err) ∧
        (e.planBatch renames).run.questions = []) := by
  refine ⟨fun plan => ?_, fun hinconsistent => ?_⟩
  · rw [planBatch_eq_ok_iff]
    obtain ⟨plans, ⟨edits⟩⟩ := plan
    simp only [Batch.mergedEdit, WorkspaceEdit.mk.injEq]
  -- The checks come first and ask nothing.
  · cases hcheck : Batch.check renames with
    | ok _ => exact absurd (Batch.check_eq_ok_iff.mp hcheck) hinconsistent
    | error err =>
      have hrun := planBatch_refused (e := e) hcheck
      exact ⟨⟨err, congrArg Asked.answer hrun⟩, congrArg Asked.questions hrun⟩

end Engine
end HotRename
