/-!
# Reachable nodes

A graph is given by a function that lists the successors of a node. A walk over it ends when only
finitely many nodes can be reached from its roots; `FiniteReach` says so, and `unseen` counts the
nodes that a walk has still in front of it.
-/

namespace HotRename

variable {α : Type u}

/-- The nodes that can be reached from the roots in any number of steps. -/
inductive Reach (next : α → List α) (roots : List α) : α → Prop where
  | root {a : α} : a ∈ roots → Reach next roots a
  | step {a b : α} : Reach next roots a → b ∈ next a → Reach next roots b

/-- Finitely many nodes can be reached from the roots. -/
def FiniteReach (next : α → List α) (roots : List α) : Prop :=
  ∃ bound : List α, ∀ a, Reach next roots a → a ∈ bound

namespace FiniteReach

/-- A list of nodes that holds all reachable ones. -/
noncomputable def bound {next : α → List α} {roots : List α} (h : FiniteReach next roots) :
    List α :=
  h.choose

/-- The bound holds every node that can be reached. -/
theorem mem_bound {next : α → List α} {roots : List α} (h : FiniteReach next roots) {a : α}
    (ha : Reach next roots a) : a ∈ h.bound :=
  h.choose_spec a ha

/-- A relation all of whose successors come from one list reaches finitely many nodes. -/
theorem of_forall_mem {next : α → List α} (roots all : List α)
    (h : ∀ a, ∀ b ∈ next a, b ∈ all) : FiniteReach next roots := by
  refine ⟨roots ++ all, fun a ha => ?_⟩
  cases ha with
  | root hr => exact List.mem_append_left _ hr
  | step _ hb => exact List.mem_append_right _ (h _ _ hb)

end FiniteReach

section Unseen

variable [DecidableEq α]

/-- Number of entries of `bound` that are not among the nodes seen so far. -/
def unseen (bound seen : List α) : Nat :=
  (bound.filter fun a => a ∉ seen).length

/-- Seeing a new node of the bound leaves fewer to be seen. -/
theorem unseen_cons_lt {bound seen : List α} {a : α} (hb : a ∈ bound) (hs : a ∉ seen) :
    unseen bound (a :: seen) < unseen bound seen := by
  -- What is unseen after `a` is what was unseen before, without `a`.
  have hsub : bound.filter (fun x => x ∉ a :: seen) =
      (bound.filter fun x => x ∉ seen).filter fun x => x ≠ a := by
    rw [List.filter_filter]
    apply List.filter_congr
    intro x _
    simp only [List.mem_cons, not_or, Bool.decide_and]
  rw [unseen, unseen, hsub]
  apply List.length_filter_lt_length_iff_exists.mpr
  exact ⟨a, by simp [hb, hs], by simp⟩

end Unseen
end HotRename
