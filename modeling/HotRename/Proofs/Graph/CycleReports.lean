import HotRename.Proofs.Graph.CyclesFound

/-!
# The reports of a search for cycles

A search looks at each entry of a list of successors once, and it enters the nodes of its path in
the order in which they lie there. So where no successor is listed twice, no step closes two of the
reported cycles, and no two of these go through the same nodes. A report closes with one step only,
so closed walks without a common step need a report each. Main statements:

* `LookedOnce.step`        no step of the graph closes a second cycle
* `EntryOrder.step`        the path stays in the order in which its nodes were entered
* `length_le_reports`      closed walks without a common step have a report each
* `detectCycles_sound`     what is reported is a cycle of reached nodes
* `detectCycles_complete`  without the steps that close the reports there is no cycle
-/

namespace HotRename

variable {α : Type u} {next : α → List α} {roots : List α} {a b c d : α}

/-- A list ends with one step only. -/
theorem eq_of_pair_suffix {walk : List α} (h : [a, b] <:+ walk) (h' : [c, d] <:+ walk) :
    a = c ∧ b = d := by
  have hpair : [a, b] = [c, d] :=
    (List.suffix_of_suffix_length_le h h' (Nat.le_refl 2)).eq_of_length rfl
  simpa using hpair

namespace IsClosedWalk

/-- A closed walk ends with a step. -/
theorem exists_pair_suffix {walk : List α} (h : IsClosedWalk next walk) :
    ∃ a b, [a, b] <:+ walk := by
  obtain ⟨a, between, rfl, -⟩ := h
  -- The step goes from the last node before the end back to the first.
  have hne : a :: between ≠ [] := List.cons_ne_nil a between
  refine ⟨(a :: between).getLast hne, a, (a :: between).dropLast, ?_⟩
  rw [List.append_cons, List.dropLast_concat_getLast hne]

/-- A closed walk is known without the repetition of its first node at its end. -/
theorem eq_of_dropLast {walk walk' : List α} (h : IsClosedWalk next walk)
    (h' : IsClosedWalk next walk') (heq : walk.dropLast = walk'.dropLast) : walk = walk' := by
  obtain ⟨a, between, rfl, -⟩ := h
  obtain ⟨a', between', rfl, -⟩ := h'
  rw [List.dropLast_concat, List.dropLast_concat] at heq
  cases heq
  rfl

end IsClosedWalk

namespace CycleSearch

/-- The first node of a step that closes one of the cycles found was entered. -/
theorem Sound.mem_entered {s : CycleSearch α} (h : Sound next roots s)
    (hcloses : Closes s.cycles a b) : a ∈ s.entered := by
  obtain ⟨cycle, hcycle, hsuffix⟩ := hcloses
  exact (h.cycles cycle hcycle).2 a (hsuffix.subset List.mem_cons_self)

/-- One more cycle adds the step with which it closes. -/
theorem closes_append_singleton {cycles : List (List α)} {cycle : List α} :
    Closes (cycles ++ [cycle]) a b ↔ Closes cycles a b ∨ [a, b] <:+ cycle := by
  simp [Closes, or_and_right, exists_or]

/-! ## Each successor is looked at once -/

/-- The lists do not end with the same step. -/
def CloseApart (cycle cycle' : List α) : Prop :=
  ∀ a b, [a, b] <:+ cycle → ¬ [a, b] <:+ cycle'

/-- What is known of the successors still to be looked at where none is listed twice. -/
structure LookedOnce (s : CycleSearch α) : Prop where
  nodup : ∀ frame ∈ s.path, frame.2.Nodup
  /-- A step that closes a cycle found before is not to be looked at again. -/
  fresh : ∀ frame ∈ s.path, ∀ b ∈ frame.2, ¬ Closes s.cycles frame.1 b
  /-- No step closes two of the cycles. -/
  apart : s.cycles.Pairwise CloseApart

/-- Before the search nothing was looked at. -/
theorem lookedOnce_start : LookedOnce ({} : CycleSearch α) where
  nodup := nofun
  fresh := nofun
  apart := .nil

namespace LookedOnce

variable {entered later : List α} {path : List (α × List α)} {cycles : List (List α)}

/-- A node that was not entered before is not the start of a step that closes a cycle. -/
theorem enter (h : LookedOnce { entered, path, cycles }) (hnodup : (next b).Nodup)
    (hnew : ∀ c, ¬ Closes cycles b c) :
    LookedOnce { entered := b :: entered, path := (b, next b) :: path, cycles } where
  nodup := List.forall_mem_cons.mpr ⟨hnodup, h.nodup⟩
  fresh := List.forall_mem_cons.mpr ⟨fun c _ => hnew c, h.fresh⟩
  apart := h.apart

/-- Looking at a successor leaves fewer to be looked at. -/
theorem look (h : LookedOnce { entered, path := (a, b :: later) :: path, cycles }) :
    LookedOnce { entered, path := (a, later) :: path, cycles } := by
  obtain ⟨hnodup, hrest⟩ := List.forall_mem_cons.mp h.nodup
  obtain ⟨hfresh, hfreshRest⟩ := List.forall_mem_cons.mp h.fresh
  exact ⟨List.forall_mem_cons.mpr ⟨(List.nodup_cons.mp hnodup).2, hrest⟩,
    List.forall_mem_cons.mpr ⟨fun c hc => hfresh c (List.mem_cons_of_mem _ hc), hfreshRest⟩,
    h.apart⟩

/-- Leaving a node takes its frame off the path. -/
theorem leave (h : LookedOnce { entered, path := (a, later) :: path, cycles }) :
    LookedOnce { entered, path, cycles } where
  nodup frame hframe := h.nodup frame (List.mem_cons_of_mem _ hframe)
  fresh frame hframe := h.fresh frame (List.mem_cons_of_mem _ hframe)
  apart := h.apart

/-- A step that closes a cycle is looked at for the first time, and not again after that. -/
theorem close (h : LookedOnce { entered, path := (a, b :: later) :: path, cycles })
    (hpath : a ∉ path.map Prod.fst) {cycle : List α} (hsuffix : [a, b] <:+ cycle) :
    LookedOnce { entered, path := (a, later) :: path, cycles := cycles ++ [cycle] } where
  nodup := h.look.nodup
  fresh := by
    intro frame hframe c hc hcloses
    rcases closes_append_singleton.mp hcloses with hold | hlast
    · exact h.look.fresh frame hframe c hc hold
    · -- The new cycle closes at `b`, which is not listed again, and `a` is on the path once.
      obtain ⟨ha, rfl⟩ := eq_of_pair_suffix hsuffix hlast
      rcases List.mem_cons.mp hframe with rfl | hframe
      · exact (List.nodup_cons.mp (h.nodup _ List.mem_cons_self)).1 hc
      · exact hpath (ha ▸ List.mem_map_of_mem hframe)
  apart := by
    refine List.pairwise_append.mpr ⟨h.apart, List.pairwise_singleton _ _, ?_⟩
    intro earlier hearlier last hlast x y hxy hxy'
    cases List.mem_singleton.mp hlast
    -- The step was still to be looked at, so no cycle was closed by it.
    obtain ⟨rfl, rfl⟩ := eq_of_pair_suffix hsuffix hxy'
    exact h.fresh _ List.mem_cons_self _ List.mem_cons_self ⟨earlier, hearlier, hxy⟩

end LookedOnce

/-! ## Nodes in the order in which they were entered -/

/-- The path and the cycles go through nodes in the order in which these were entered. -/
structure EntryOrder (s : CycleSearch α) : Prop where
  onPath : s.onPath.Sublist s.entered
  cycles : ∀ cycle ∈ s.cycles, cycle.dropLast.reverse.Sublist s.entered

/-- Before the search no node was entered. -/
theorem entryOrder_start : EntryOrder ({} : CycleSearch α) where
  onPath := .slnil
  cycles := nofun

namespace EntryOrder

variable {entered later : List α} {path : List (α × List α)} {cycles : List (List α)}

/-- A node that is entered comes last, on the path and among the nodes entered. -/
theorem enter (h : EntryOrder { entered, path, cycles }) (b : α) :
    EntryOrder { entered := b :: entered, path := (b, later) :: path, cycles } where
  onPath := h.onPath.cons_cons b
  cycles cycle hcycle := (h.cycles cycle hcycle).cons b

/-- Looking at a successor does not change the path. -/
theorem look (h : EntryOrder { entered, path := (a, b :: later) :: path, cycles }) :
    EntryOrder { entered, path := (a, later) :: path, cycles } :=
  ⟨h.onPath, h.cycles⟩

end EntryOrder

variable [DecidableEq α] {s s' : CycleSearch α}

/-- A reported cycle without its end is the part of the path from the repeated node on. -/
theorem dropLast_closing (b : α) (onPath : List α) :
    (closing b onPath).dropLast.reverse = onPath.takeWhile (· ≠ b) ++ [b] := by
  rw [closing, List.dropLast_concat, List.reverse_cons, List.reverse_reverse]

/-- Every step keeps the order of the path and of the cycles. -/
theorem EntryOrder.step (h : EntryOrder s) (hstep : Step next roots s s') : EntryOrder s' := by
  obtain ⟨entered, path, cycles⟩ := s
  cases hstep with
  | root hpath hr hnew => exact h.enter _
  | leave hpath =>
    subst hpath
    exact ⟨(List.sublist_cons_self _ _).trans h.onPath, h.cycles⟩
  | close hpath hb =>
    subst hpath
    refine ⟨h.onPath, fun cycle hcycle => ?_⟩
    rcases List.mem_append.mp hcycle with hcycle | hcycle
    · exact h.cycles cycle hcycle
    · -- The new cycle, from its end back to the repeated node, is the end of the path.
      rw [List.mem_singleton.mp hcycle, dropLast_closing]
      exact (takeWhile_append_isPrefix hb).sublist.trans h.onPath
  | pass hpath =>
    subst hpath
    exact h.look
  | enter hpath hnew =>
    subst hpath
    exact h.look.enter _

/-- Where no successor is listed twice, every step that closes a cycle is a new one. -/
theorem LookedOnce.step (hnext : ∀ a, Reach next roots a → (next a).Nodup) (h : LookedOnce s)
    (hsound : Sound next roots s) (hstep : Step next roots s s') : LookedOnce s' := by
  have hsound' := hsound.step hstep
  obtain ⟨entered, path, cycles⟩ := s
  -- A step that closes a cycle starts at a node that was entered, so a new node starts none.
  cases hstep with
  | root hpath hr hnew =>
    subst hpath
    exact h.enter (hnext _ (.root hr)) fun c hcloses => hnew (hsound.mem_entered hcloses)
  | leave hpath =>
    subst hpath
    exact h.leave
  | close hpath hb =>
    subst hpath
    exact h.close (List.nodup_cons.mp hsound.nodup_onPath).1 (closing_suffix _ _ _)
  | pass hpath =>
    subst hpath
    exact h.look
  | enter hpath hnew =>
    subst hpath
    exact h.look.enter (hnext _ (hsound'.reach _ List.mem_cons_self))
      fun c hcloses => hnew (hsound.mem_entered hcloses)

end CycleSearch

open CycleSearch

variable [DecidableEq α]

/-- Where no successor is listed twice, no step closes two of the reported cycles. -/
theorem detectCycles_closeApart (finite : FiniteReach next roots)
    (hnext : ∀ a, Reach next roots a → (next a).Nodup) :
    (detectCycles next roots finite).Pairwise CloseApart := by
  -- Both invariants are kept by every step, the second with the help of the first.
  have hkeeps := (cycleSearch_steps finite).1.keeps
    (P := fun s => Sound next roots s ∧ LookedOnce s) ⟨sound_start next roots, lookedOnce_start⟩
    fun s s' h hstep => ⟨h.1.step hstep, h.2.step hnext h.1 hstep⟩
  exact hkeeps.2.apart

/-- Reported cycles through the same nodes are the same. -/
theorem detectCycles_eq_of_perm (finite : FiniteReach next roots) {cycle cycle' : List α}
    (h : cycle ∈ detectCycles next roots finite) (h' : cycle' ∈ detectCycles next roots finite)
    (hperm : cycle.dropLast.Perm cycle'.dropLast) : cycle = cycle' := by
  have horder := (cycleSearch_steps finite).1.keeps entryOrder_start fun _ _ => EntryOrder.step
  -- Both list their nodes in the order in which these were entered.
  have hreverse : cycle.dropLast.reverse = cycle'.dropLast.reverse := by
    refine ((sound_cycleSearch finite).nodup_entered.perm_iff_eq_of_sublist
      (horder.cycles cycle h) (horder.cycles cycle' h')).mp ?_
    exact (List.reverse_perm _).trans (hperm.trans (List.reverse_perm _).symm)
  exact (detectCycles_isCycle finite h).1.closed.eq_of_dropLast
    (detectCycles_isCycle finite h').1.closed (List.reverse_injective hreverse)

/-- Where no successor is listed twice, no two reported cycles go through the same nodes. -/
theorem detectCycles_not_perm (finite : FiniteReach next roots)
    (hnext : ∀ a, Reach next roots a → (next a).Nodup) :
    (detectCycles next roots finite).Pairwise fun c d => ¬ c.dropLast.Perm d.dropLast := by
  refine (detectCycles_closeApart finite hnext).imp_of_mem ?_
  intro c d hc hd hapart hperm
  -- Two reports through the same nodes would be one cycle, and close with the same step.
  obtain ⟨a, b, hsuffix⟩ := (detectCycles_isCycle finite hc).1.closed.exists_pair_suffix
  cases detectCycles_eq_of_perm finite hc hd hperm
  exact hapart a b hsuffix hsuffix

/-! ## Walks without a common step -/

/-- The walks have no step in common. -/
def StepDisjoint (walk walk' : List α) : Prop :=
  ∀ a b, [a, b] <:+: walk → ¬ [a, b] <:+: walk'

/-- There are at least as many reports as closed walks through reached nodes that have no step in
    common: each of these needs a report of its own that closes with one of its steps. -/
theorem length_le_reports (finite : FiniteReach next roots) {walks : List (List α)}
    (hwalks : ∀ walk ∈ walks, IsClosedWalk next walk ∧ ∃ a ∈ walk, Reach next roots a)
    (hdisjoint : walks.Pairwise StepDisjoint) :
    walks.length ≤ (detectCycles next roots finite).length := by
  have hexists : ∀ walk ∈ walks, ∃ cycle, cycle ∈ detectCycles next roots finite ∧
      ∃ a b, [a, b] <:+: walk ∧ [a, b] <:+ cycle := by
    intro walk hwalk
    obtain ⟨hclosed, a, ha, hreach⟩ := hwalks walk hwalk
    obtain ⟨x, y, hinfix, cycle, hcycle, hsuffix⟩ :=
      exists_closes finite hclosed fun b hb => (hclosed.leadsTo ha hb).reach hreach
    exact ⟨cycle, hcycle, x, y, hinfix, hsuffix⟩
  choose! report hreport hcommon using hexists
  -- Walks with one report would have the step in common with which it closes.
  have hnodup : (walks.map report).Nodup := by
    refine List.pairwise_map.mpr (hdisjoint.imp_of_mem ?_)
    intro walk walk' hwalk hwalk' hdisjoint hsame
    obtain ⟨a, b, hinfix, hsuffix⟩ := hcommon walk hwalk
    obtain ⟨c, d, hinfix', hsuffix'⟩ := hcommon walk' hwalk'
    obtain ⟨rfl, rfl⟩ := eq_of_pair_suffix hsuffix (hsame ▸ hsuffix')
    exact hdisjoint a b hinfix hinfix'
  have hsub : walks.map report ⊆ detectCycles next roots finite :=
    List.forall_mem_map.mpr hreport
  have hle := (List.subperm_of_subset hnodup hsub).length_le
  rwa [List.length_map] at hle

/-! ## Reports and cycles -/

/-- Every report goes from a reached node through other nodes, each of them once, back to that
    node, and from each node to one of its successors. -/
theorem detectCycles_sound (finite : FiniteReach next roots) {cycle : List α}
    (h : cycle ∈ detectCycles next roots finite) :
    ∃ first others, cycle = first :: others ++ [first] ∧ others.Nodup ∧ first ∉ others ∧
      (cycle.IsChain fun a b => b ∈ next a) ∧ Reach next roots first := by
  obtain ⟨⟨hclosed, hnodup⟩, hreach⟩ := detectCycles_isCycle finite h
  obtain ⟨first, others, rfl, hchain⟩ := hclosed
  rw [List.dropLast_concat] at hnodup
  obtain ⟨hfirst, hothers⟩ := List.nodup_cons.mp hnodup
  exact ⟨first, others, rfl, hothers, hfirst, hchain, hreach first List.mem_cons_self⟩

/-- Two cycles that share a step, a loop behind them, and a second way to the loop. -/
def knot : Fin 4 → List (Fin 4)
  | 0 => [1, 3]
  | 1 => [2]
  | 2 => [0, 1, 3]
  | 3 => [3]

/-- The knot has four nodes. -/
theorem finiteReach_knot : FiniteReach knot [0] :=
  .of_forall_mem [0] [0, 1, 2, 3] (by decide)

/-- The cycles that are reported for it; the step from `0` to `3` closes none. -/
theorem detectCycles_knot :
    detectCycles knot [0] finiteReach_knot = [[0, 1, 2, 0], [1, 2, 1], [3, 3]] := by
  cbv

/-- The second report of the knot is a cycle. -/
theorem detectCycles_sound_knot :
    [1, 2, 1] ∈ detectCycles knot [0] finiteReach_knot ∧
      ∃ first others, [1, 2, 1] = first :: others ++ [first] ∧ others.Nodup ∧ first ∉ others ∧
        ([1, 2, 1].IsChain fun a b => b ∈ knot a) ∧ Reach knot [0] first := by
  have h : [1, 2, 1] ∈ detectCycles knot [0] finiteReach_knot := by
    rw [detectCycles_knot]
    decide
  exact ⟨h, detectCycles_sound finiteReach_knot h⟩

/-- Without the steps that close the reported cycles no reached node lies on a cycle. So there is
    no report exactly if no reached node lies on a cycle, and there are at least as many reports as
    closed walks without a common step. Where no successor is listed twice, no step closes two
    reports, and no two reports go through the same nodes. -/
theorem detectCycles_complete (finite : FiniteReach next roots) :
    (∀ a, Reach next roots a →
        ¬ OnCycle (remaining next (detectCycles next roots finite)) a) ∧
      (detectCycles next roots finite = [] ↔
        ∀ a, Reach next roots a → ¬ OnCycle next a) ∧
      (∀ walks : List (List α),
        (∀ walk ∈ walks, IsClosedWalk next walk ∧ ∃ a ∈ walk, Reach next roots a) →
        walks.Pairwise StepDisjoint →
        walks.length ≤ (detectCycles next roots finite).length) ∧
      ((∀ a, Reach next roots a → (next a).Nodup) →
        (detectCycles next roots finite).Pairwise CloseApart ∧
        (detectCycles next roots finite).Pairwise fun c d => ¬ c.dropLast.Perm d.dropLast) := by
  refine ⟨fun a ha => not_onCycle_remaining finite ha, ?_,
    fun walks hwalks hdisjoint => length_le_reports finite hwalks hdisjoint,
    fun hnext => ⟨detectCycles_closeApart finite hnext, detectCycles_not_perm finite hnext⟩⟩
  rw [← not_iff_not, ← ne_eq, detectCycles_ne_nil_iff finite]
  simp only [not_forall, not_not, exists_prop]

/-- Two of the cycles of the knot have no common step, and without the closing steps the loop is no
    cycle any more. -/
theorem detectCycles_complete_knot :
    [[0, 1, 2, 0], [3, 3]].Pairwise (@StepDisjoint (Fin 4)) ∧
      2 ≤ (detectCycles knot [0] finiteReach_knot).length ∧
      (∀ a, (knot a).Nodup) ∧
      (detectCycles knot [0] finiteReach_knot).Pairwise CloseApart ∧
      ¬ OnCycle (remaining knot (detectCycles knot [0] finiteReach_knot)) 3 := by
  obtain ⟨hremaining, -, hcount, hapart⟩ := detectCycles_complete finiteReach_knot
  have hreach : Reach knot [0] 3 := .step (.root List.mem_cons_self) (by decide)
  have hnodup : ∀ a, (knot a).Nodup := by decide
  have hdisjoint : [[0, 1, 2, 0], [3, 3]].Pairwise (@StepDisjoint (Fin 4)) := by
    unfold StepDisjoint
    decide
  refine ⟨hdisjoint, hcount [[0, 1, 2, 0], [3, 3]] ?_ hdisjoint, hnodup,
    (hapart fun a _ => hnodup a).1, hremaining 3 hreach⟩
  -- The circle through 0, 1 and 2, and the loop at 3.
  refine List.forall_mem_cons.mpr ⟨⟨⟨0, [1, 2], rfl, by decide⟩, 0, by simp, .root (by simp)⟩, ?_⟩
  exact List.forall_mem_cons.mpr ⟨⟨⟨3, [], rfl, by decide⟩, 3, by simp, hreach⟩, nofun⟩

end HotRename
