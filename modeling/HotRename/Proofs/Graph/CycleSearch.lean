import HotRename.Graph.Cycles
import HotRename.Proofs.Graph.Reach
import Mathlib.Data.List.Chain
import Mathlib.Data.List.TakeWhile

/-!
# The steps of a search for cycles

A search enters a root, leaves the end of its path, or looks at one more successor there, which
closes a cycle, was entered before, or is entered now. What each of these steps keeps holds of the
finished search. Main statements:

* `cycleSearch_steps`   the finished search is the result of such steps
* `Sound.step`          a step keeps the path a walk through reached nodes
* `IsClosedWalk.onCycle`  the nodes of a reported cycle lie on a cycle
-/

namespace HotRename

variable {α : Type u} {next next' : α → List α} {roots : List α} {a b c : α}

/-! ## Closed walks -/

/-- The list goes from successor to successor and ends where it began, after one or more steps. -/
def IsClosedWalk (next : α → List α) (walk : List α) : Prop :=
  ∃ a between, walk = a :: between ++ [a] ∧ walk.IsChain fun x y => y ∈ next x

/-- A closed walk that comes to no node twice before its end. -/
structure IsCycle (next : α → List α) (cycle : List α) : Prop where
  closed : IsClosedWalk next cycle
  nodup : cycle.dropLast.Nodup

/-- The first node of a walk leads to the others. -/
theorem leadsTo_of_isChain {walk : List α} (h : (a :: walk).IsChain fun x y => y ∈ next x)
    (hb : b ∈ walk) : LeadsTo next a b := by
  induction walk generalizing a with
  | nil => cases hb
  | cons c walk ih =>
    obtain ⟨hac, h⟩ := List.isChain_cons_cons.mp h
    rcases List.mem_cons.mp hb with rfl | hb
    · exact .of_mem hac
    · exact LeadsTo.trans (.of_mem hac) (ih h hb)

/-- Each member of a chain is followed by one. -/
theorem exists_next_of_isChain {R : α → α → Prop} {as : List α} (h : (as ++ [a]).IsChain R)
    (hb : b ∈ as) : ∃ c ∈ as ++ [a], R b c := by
  obtain ⟨front, back, rfl⟩ := List.append_of_mem hb
  rw [List.append_assoc, List.cons_append] at h ⊢
  cases back with
  | nil => exact ⟨a, by simp, (List.isChain_cons_cons.mp h.right_of_append).1⟩
  | cons c back => exact ⟨c, by simp, (List.isChain_cons_cons.mp h.right_of_append).1⟩

namespace IsClosedWalk

variable {walk : List α}

/-- The nodes of a closed walk lead to each other. -/
theorem leadsTo (h : IsClosedWalk next walk) (hb : b ∈ walk) (hc : c ∈ walk) :
    LeadsTo next b c := by
  obtain ⟨a, between, rfl, hchain⟩ := h
  -- The walk leads from its first node to all nodes on it, the first one included.
  have haa : LeadsTo next a a := leadsTo_of_isChain hchain (by simp)
  have hmem : ∀ x ∈ a :: between ++ [a], x = a ∨ x ∈ between := by
    intro x hx
    simpa [or_comm] using hx
  have hfrom : LeadsTo next a c := by
    rcases hmem c hc with rfl | hc
    · exact haa
    · exact leadsTo_of_isChain hchain (by simp [hc])
  rcases hmem b hb with rfl | hb
  · exact hfrom
  · -- The walk goes on from this node to its end, which is its first node.
    obtain ⟨front, back, rfl⟩ := List.append_of_mem hb
    have hback : (b :: (back ++ [a])).IsChain fun x y => y ∈ next x := by
      have hsplit : a :: (front ++ b :: back) ++ [a] = (a :: front) ++ b :: (back ++ [a]) := by
        simp
      rw [hsplit] at hchain
      exact hchain.right_of_append
    exact LeadsTo.trans (leadsTo_of_isChain hback (by simp)) hfrom

/-- The nodes of a closed walk lie on a cycle. -/
theorem onCycle (h : IsClosedWalk next walk) (hb : b ∈ walk) : OnCycle next b :=
  h.leadsTo hb hb

/-- A closed walk goes on from each of its nodes. -/
theorem exists_next (h : IsClosedWalk next walk) (hb : b ∈ walk) : ∃ c ∈ walk, c ∈ next b := by
  obtain ⟨a, between, rfl, hchain⟩ := h
  have hb : b ∈ a :: between := by
    simpa [or_comm] using hb
  exact exists_next_of_isChain hchain hb

/-- Relations that agree on reached nodes have the same closed walks through them. -/
theorem congr (hnext : ∀ a, Reach next roots a → ∀ b, b ∈ next' a ↔ b ∈ next a)
    (hreach : ∀ a ∈ walk, Reach next roots a) :
    IsClosedWalk next' walk ↔ IsClosedWalk next walk := by
  have hchain : (walk.IsChain fun x y => y ∈ next' x) ↔ walk.IsChain fun x y => y ∈ next x := by
    constructor
    · exact List.IsChain.imp_of_mem_imp fun x y hx _ => (hnext x (hreach x hx) y).mp
    · exact List.IsChain.imp_of_mem_imp fun x y hx _ => (hnext x (hreach x hx) y).mpr
  unfold IsClosedWalk
  rw [hchain]

end IsClosedWalk

/-- A node that leads to itself is the start of a closed walk. -/
theorem OnCycle.exists_isClosedWalk (h : OnCycle next a) :
    ∃ between, IsClosedWalk next (a :: between ++ [a]) := by
  have hwalk : ∀ b, LeadsTo next a b →
      ∃ between, (a :: between ++ [b]).IsChain fun x y => y ∈ next x := by
    intro b hb
    -- By induction on the steps that lead to the node.
    induction hb with
    | root hr => exact ⟨[], by simpa using hr⟩
    | @step b c _ hc ih =>
      obtain ⟨between, hchain⟩ := ih
      refine ⟨between ++ [b], hchain.append (List.isChain_singleton c) fun x hx y hy => ?_⟩
      have hlast : (a :: between ++ [b]).getLast? = some b := List.getLast?_concat
      rw [hlast] at hx
      cases hx
      cases hy
      exact hc
  obtain ⟨between, hchain⟩ := hwalk a h
  exact ⟨between, a, between, rfl, hchain⟩

namespace CycleSearch

/-! ## The path -/

/-- What is known of the nodes entered, of the path and of the cycles found. -/
structure Sound (next : α → List α) (roots : List α) (s : CycleSearch α) : Prop where
  nodup_entered : s.entered.Nodup
  reach : ∀ a ∈ s.entered, Reach next roots a
  nodup_onPath : s.onPath.Nodup
  onPath_entered : ∀ a ∈ s.onPath, a ∈ s.entered
  /-- The path, its end first, goes from successor to node. -/
  chain : s.onPath.IsChain fun b a => b ∈ next a
  pending : ∀ frame ∈ s.path, ∀ b ∈ frame.2, b ∈ next frame.1
  cycles : ∀ cycle ∈ s.cycles, IsCycle next cycle ∧ ∀ a ∈ cycle, a ∈ s.entered

/-- Before the search there is nothing to be known. -/
theorem sound_start (next : α → List α) (roots : List α) : Sound next roots {} where
  nodup_entered := List.nodup_nil
  reach := nofun
  nodup_onPath := List.nodup_nil
  onPath_entered := nofun
  chain := .nil
  pending := nofun
  cycles := nofun

namespace Sound

/-- Entering a node that can follow the end of the path keeps what is known. -/
theorem enter {entered : List α} {path : List (α × List α)} {cycles : List (List α)}
    (h : Sound next roots { entered, path, cycles }) (hreach : Reach next roots b)
    (hnew : b ∉ entered) (hlink : ∀ a ∈ (path.map Prod.fst).head?, b ∈ next a) :
    Sound next roots { entered := b :: entered, path := (b, next b) :: path, cycles } where
  nodup_entered := List.nodup_cons.mpr ⟨hnew, h.nodup_entered⟩
  reach a ha := by
    rcases List.mem_cons.mp ha with rfl | ha
    · exact hreach
    · exact h.reach a ha
  -- What is on the path was entered, so a node not entered before is new to both.
  nodup_onPath := List.nodup_cons.mpr ⟨fun hb => hnew (h.onPath_entered b hb), h.nodup_onPath⟩
  onPath_entered a ha := by
    rcases List.mem_cons.mp ha with rfl | ha
    · exact List.mem_cons_self
    · exact List.mem_cons_of_mem _ (h.onPath_entered a ha)
  chain := List.isChain_cons.mpr ⟨hlink, h.chain⟩
  pending frame hframe := by
    rcases List.mem_cons.mp hframe with rfl | hframe
    · exact fun _ hb => hb
    · exact h.pending frame hframe
  cycles cycle hcycle := by
    obtain ⟨hcycle, hmem⟩ := h.cycles cycle hcycle
    exact ⟨hcycle, fun a ha => List.mem_cons_of_mem _ (hmem a ha)⟩

/-- Looking at a successor of the end of the path keeps what is known. -/
theorem look {entered later : List α} {below : List (α × List α)} {cycles : List (List α)}
    (h : Sound next roots { entered, path := (a, b :: later) :: below, cycles }) :
    Sound next roots { entered, path := (a, later) :: below, cycles } where
  nodup_entered := h.nodup_entered
  reach := h.reach
  nodup_onPath := h.nodup_onPath
  onPath_entered := h.onPath_entered
  chain := h.chain
  pending frame hframe c hc := by
    rcases List.mem_cons.mp hframe with rfl | hframe
    · exact h.pending (a, b :: later) List.mem_cons_self c (List.mem_cons_of_mem _ hc)
    · exact h.pending frame (List.mem_cons_of_mem _ hframe) c hc
  cycles := h.cycles

/-- Leaving the end of the path keeps what is known. -/
theorem leave {entered later : List α} {below : List (α × List α)} {cycles : List (List α)}
    (h : Sound next roots { entered, path := (a, later) :: below, cycles }) :
    Sound next roots { entered, path := below, cycles } where
  nodup_entered := h.nodup_entered
  reach := h.reach
  nodup_onPath := (List.nodup_cons.mp h.nodup_onPath).2
  onPath_entered b hb := h.onPath_entered b (List.mem_cons_of_mem _ hb)
  chain := (List.isChain_cons.mp h.chain).2
  pending frame hframe := h.pending frame (List.mem_cons_of_mem _ hframe)
  cycles := h.cycles

end Sound

/-! ## The cycle that a node on the path closes -/

variable [DecidableEq α] {onPath : List α}

/-- The path from its end back to a node on it. -/
theorem takeWhile_append_isPrefix (hb : b ∈ onPath) :
    onPath.takeWhile (· ≠ b) ++ [b] <+: onPath := by
  induction onPath with
  | nil => cases hb
  | cons c onPath ih =>
    by_cases hcb : c = b
    · subst hcb
      simp
    -- The first node of the path is another one, so `b` lies further on.
    · have hb : b ∈ onPath := by
        rcases List.mem_cons.mp hb with h | h
        · exact absurd h.symm hcb
        · exact h
      simpa [hcb, List.prefix_cons_inj] using ih hb

/-- A reported cycle is the way back from the repeated node to itself, turned round. -/
theorem closing_eq_reverse (b : α) (onPath : List α) :
    closing b onPath = (b :: onPath.takeWhile (· ≠ b) ++ [b]).reverse := by
  simp [closing]

/-- A reported cycle goes through nodes of the path only. -/
theorem mem_of_mem_closing (hb : b ∈ onPath) (ha : a ∈ closing b onPath) : a ∈ onPath := by
  have hmem : a = b ∨ a ∈ onPath.takeWhile (· ≠ b) := by
    simpa [closing, or_comm] using ha
  rcases hmem with rfl | h
  · exact hb
  · exact (List.takeWhile_sublist _).subset h

/-- The last step of a reported cycle goes from the end of the path to the repeated node. -/
theorem closing_suffix (a b : α) (below : List α) : [a, b] <:+ closing b (a :: below) := by
  rw [closing_eq_reverse, ← List.reverse_prefix, List.reverse_reverse]
  by_cases hab : a = b
  · simp [hab]
  · simp [hab]

/-- A successor of the end of the path that lies on the path closes a cycle. -/
theorem isCycle_closing {below : List α}
    (hchain : (a :: below).IsChain fun y x => y ∈ next x) (hnodup : (a :: below).Nodup)
    (hab : b ∈ next a) (hb : b ∈ a :: below) : IsCycle next (closing b (a :: below)) := by
  refine ⟨⟨b, _, rfl, ?_⟩, ?_⟩
  -- Backwards, the cycle is the step to `b` followed by a part of the path.
  · have hprefix : b :: ((a :: below).takeWhile (· ≠ b) ++ [b]) <+: b :: a :: below :=
      (List.prefix_cons_inj b).mpr (takeWhile_append_isPrefix hb)
    have hback : (b :: a :: below).IsChain fun y x => y ∈ next x :=
      List.isChain_cons_cons.mpr ⟨hab, hchain⟩
    show (closing b (a :: below)).IsChain _
    rw [closing_eq_reverse, List.isChain_reverse]
    exact hback.prefix hprefix
  · show ((b :: ((a :: below).takeWhile (· ≠ b)).reverse) ++ [b]).dropLast.Nodup
    rw [List.dropLast_concat, List.nodup_cons]
    -- The path comes to no node twice, and stops before it comes to `b`.
    refine ⟨fun h => ?_, List.nodup_reverse.mpr (hnodup.sublist (List.takeWhile_sublist _))⟩
    have hne := List.mem_takeWhile_imp (List.mem_reverse.mp h)
    simp at hne

/-! ## The steps -/

variable {s s' : CycleSearch α}

/-- One step of a search. -/
inductive Step (next : α → List α) (roots : List α) : CycleSearch α → CycleSearch α → Prop where
  /-- A root is entered. -/
  | root {s : CycleSearch α} {r : α} (hpath : s.path = []) (hr : r ∈ roots)
      (hnew : r ∉ s.entered) : Step next roots s (enter next r s)
  /-- The end of the path has no successors left. -/
  | leave {s : CycleSearch α} {a : α} {below : List (α × List α)}
      (hpath : s.path = (a, []) :: below) : Step next roots s { s with path := below }
  /-- The successor lies on the path. -/
  | close {s : CycleSearch α} {a b : α} {later : List α} {below : List (α × List α)}
      (hpath : s.path = (a, b :: later) :: below) (hb : b ∈ s.onPath) :
      Step next roots s
        { s with path := (a, later) :: below, cycles := s.cycles ++ [closing b s.onPath] }
  /-- The successor was entered before and lies on the path no longer. -/
  | pass {s : CycleSearch α} {a b : α} {later : List α} {below : List (α × List α)}
      (hpath : s.path = (a, b :: later) :: below) (hb : b ∉ s.onPath) (hold : b ∈ s.entered) :
      Step next roots s { s with path := (a, later) :: below }
  /-- The successor is entered. -/
  | enter {s : CycleSearch α} {a b : α} {later : List α} {below : List (α × List α)}
      (hpath : s.path = (a, b :: later) :: below) (hnew : b ∉ s.entered) :
      Step next roots s (enter next b { s with path := (a, later) :: below })

/-- Any number of steps. -/
abbrev Steps (next : α → List α) (roots : List α) : CycleSearch α → CycleSearch α → Prop :=
  Relation.ReflTransGen (Step next roots)

/-- A property that holds at first and is kept by every step holds after any number of them. -/
theorem Steps.keeps {P : CycleSearch α → Prop} (h : Steps next roots s s') (hs : P s)
    (hstep : ∀ s s', P s → Step next roots s s' → P s') : P s' := by
  induction h with
  | refl => exact hs
  | tail _ h ih => exact hstep _ _ ih h

/-- Nodes that were entered stay so. -/
theorem Steps.mem_entered (h : Steps next roots s s') (ha : a ∈ s.entered) : a ∈ s'.entered := by
  refine h.keeps (P := fun s => a ∈ s.entered) ha fun s s' ha hstep => ?_
  cases hstep with
  | root => exact List.mem_cons_of_mem _ ha
  | leave => exact ha
  | close => exact ha
  | pass => exact ha
  | enter => exact List.mem_cons_of_mem _ ha

/-- Exploring takes steps until the path is empty. -/
theorem explore_steps (finite : FiniteReach next roots) (s : CycleSearch α)
    (pending : Pending (Reach next roots) s.path) :
    Steps next roots s (explore next finite s pending) ∧
      (explore next finite s pending).path = [] := by
  fun_induction explore next finite s pending with
  | case1 s pending hpath => exact ⟨.refl, hpath⟩
  | case2 s pending a below hpath ih => exact ⟨ih.1.head (.leave hpath), ih.2⟩
  | case3 s pending a b later below hpath hb hrest hon ih =>
    exact ⟨ih.1.head (.close hpath (List.contains_iff_mem.mp hon)), ih.2⟩
  | case4 s pending a b later below hpath hb hrest hon hold ih =>
    exact ⟨ih.1.head (.pass hpath (fun h => hon (List.contains_iff_mem.mpr h)) hold), ih.2⟩
  | case5 s pending a b later below hpath hb hrest hon hnew ih =>
    exact ⟨ih.1.head (.enter hpath hnew), ih.2⟩

/-- Exploring from roots takes steps after which the path is empty and the roots are entered. -/
theorem exploreAll_steps (finite : FiniteReach next roots) {todo : List α}
    (htodo : ∀ r ∈ todo, r ∈ roots) (reach : ∀ r ∈ todo, Reach next roots r)
    (hpath : s.path = []) :
    Steps next roots s (exploreAll next finite todo reach s) ∧
      (exploreAll next finite todo reach s).path = [] ∧
      ∀ r ∈ todo, r ∈ (exploreAll next finite todo reach s).entered := by
  induction todo generalizing s with
  | nil => exact ⟨.refl, hpath, nofun⟩
  | cons r todo ih =>
    obtain ⟨hr, htodo⟩ := List.forall_mem_cons.mp htodo
    have hreach : ∀ x ∈ todo, Reach next roots x := fun x hx => reach x (List.mem_cons_of_mem _ hx)
    unfold exploreAll
    split
    -- The root was entered from an earlier one.
    · rename_i hold
      obtain ⟨hsteps, hend, hall⟩ := ih htodo hreach hpath
      exact ⟨hsteps, hend, List.forall_mem_cons.mpr ⟨Steps.mem_entered hsteps hold, hall⟩⟩
    · rename_i hnew
      -- Between two roots the path is empty, so entering the root is a step of the search.
      have hempty : { s with path := [] } = s := by
        rw [← hpath]
      have hroot : Step next roots s (CycleSearch.enter next r { s with path := [] }) := by
        rw [hempty]
        exact .root hpath hr hnew
      obtain ⟨hexplore, hpath'⟩ :=
        explore_steps finite (CycleSearch.enter next r { s with path := [] }) (by
          intro frame hf c hc
          rcases List.mem_cons.mp hf with rfl | hf
          · exact .step (reach r List.mem_cons_self) hc
          · cases hf)
      obtain ⟨hsteps, hend, hall⟩ := ih htodo hreach hpath'
      have hentered := Steps.mem_entered (hexplore.trans hsteps) List.mem_cons_self
      exact ⟨(hexplore.head hroot).trans hsteps, hend, List.forall_mem_cons.mpr ⟨hentered, hall⟩⟩

/-- The finished search is the result of steps, after which the path is empty. -/
theorem cycleSearch_steps (finite : FiniteReach next roots) :
    Steps next roots {} (cycleSearch next roots finite) ∧
      (cycleSearch next roots finite).path = [] ∧
      ∀ r ∈ roots, r ∈ (cycleSearch next roots finite).entered :=
  exploreAll_steps finite (fun _ h => h) _ rfl

/-- A step keeps what is known of the path and of the cycles found. -/
theorem Sound.step (h : Sound next roots s) (hstep : Step next roots s s') :
    Sound next roots s' := by
  obtain ⟨entered, path, cycles⟩ := s
  cases hstep with
  | root hpath hr hnew =>
    subst hpath
    exact h.enter (.root hr) hnew nofun
  | leave hpath =>
    subst hpath
    exact h.leave
  | @close a b later below hpath hb =>
    subst hpath
    have hab : b ∈ next a := h.pending (a, b :: later) List.mem_cons_self b List.mem_cons_self
    -- Of the parts of the invariant only the one about reports has something new to show.
    refine { h.look with cycles := fun cycle hcycle => ?_ }
    rcases List.mem_append.mp hcycle with hcycle | hcycle
    · exact h.cycles cycle hcycle
    · rw [List.mem_singleton.mp hcycle]
      exact ⟨isCycle_closing h.chain h.nodup_onPath hab hb,
        fun x hx => h.onPath_entered x (mem_of_mem_closing hb hx)⟩
  | pass hpath =>
    subst hpath
    exact h.look
  | @enter a b later below hpath hnew =>
    subst hpath
    have hab : b ∈ next a := h.pending (a, b :: later) List.mem_cons_self b List.mem_cons_self
    -- The node is entered from the end of the path, which gives the link of the chain.
    have ha : Reach next roots a := h.reach a (h.onPath_entered a List.mem_cons_self)
    refine h.look.enter (.step ha hab) hnew fun x hx => ?_
    have hax : a = x := by simpa using hx
    exact hax ▸ hab

/-- The finished search is sound. -/
theorem sound_cycleSearch (finite : FiniteReach next roots) :
    Sound next roots (cycleSearch next roots finite) :=
  (cycleSearch_steps finite).1.keeps (sound_start next roots) fun _ _ => Sound.step

end CycleSearch
end HotRename
