import HotRename.Proofs.Graph.Order

/-!
# The exact order of a graph

While a graph is ordered, a predecessor is taken off a node only when the node has one left. To say
so, `release?` takes one off where there is one and fails otherwise; ordering with it never fails
and comes to the same. Main statements:

* `Placing.place?_eq`       placing one node takes predecessors off nodes that have some
* `placeAll?_eq`            and so does placing nodes until the queue is empty
* `topologicalOrder_exact`  which nodes are placed, where, and which are left over
-/

namespace HotRename.DependencyGraph

variable {α : Type u} [DecidableEq α] {g : DependencyGraph α} {s : Placement α} {a b : α}

/-! ## Taking predecessors off nodes that have some -/

/-- Takes one predecessor off a node, which must have one left. -/
def release? (s : Placement α) (b : α) : Option (Placement α) :=
  if s.degree b = 0 then none else some (release s b)

/-- Places a node that was taken off the queue and releases its successors, each of which must have
    a predecessor left. -/
def place? (g : DependencyGraph α) (a : α) (rest : List α) (s : Placement α) :
    Option (Placement α) :=
  (g.successors a).foldlM release? { s with queue := rest, placed := s.placed ++ [a] }

/-- Places nodes until the queue is empty, at most as many as `fuel` says; every node that is
    released must have a predecessor left. -/
def placeAll? (g : DependencyGraph α) : (fuel : Nat) → Placement α → Option (Placement α)
  | 0, s => some s
  | fuel + 1, s =>
    match s.queue with
    | [] => some s
    | a :: rest => (g.place? a rest s).bind (g.placeAll? fuel)

/-- Releasing a node takes nothing off the others. -/
theorem degree_release_of_ne (s : Placement α) (h : a ≠ b) :
    (release s b).degree a = s.degree a :=
  if_neg h

/-- Different nodes that have a predecessor each can be released one after the other. -/
theorem foldlM_release? {bs : List α} (hbs : bs.Nodup) (hdegree : ∀ b ∈ bs, 1 ≤ s.degree b) :
    bs.foldlM release? s = some (bs.foldl release s) := by
  induction bs generalizing s with
  | nil => rfl
  | cons b bs ih =>
    obtain ⟨hb, hbs⟩ := List.nodup_cons.mp hbs
    obtain ⟨hone, hrest⟩ := List.forall_mem_cons.mp hdegree
    have hrelease : release? s b = some (release s b) := if_neg (by omega)
    -- The nodes still to be released keep their predecessors, since `b` is not one of them.
    have hkept : ∀ x ∈ bs, 1 ≤ (release s b).degree x := by
      intro x hx
      have hxb : x ≠ b := fun h => hb (h ▸ hx)
      rw [degree_release_of_ne s hxb]
      exact hrest x hx
    rw [List.foldlM_cons, hrelease, List.foldl_cons]
    exact ih hbs hkept

/-- The successors of the node at the head of the queue have it as a predecessor, so they can be
    released when it is placed. -/
theorem Placing.place?_eq (h : Placing g s) {rest : List α} (hqueue : s.queue = a :: rest) :
    g.place? a rest s = some (g.place a rest s) := by
  -- The node at the head is not placed yet, so it counts in the degrees of its successors.
  have ha := (h.head hqueue).1
  exact foldlM_release? (g.nodup_successors a) fun b hb => h.one_le_degree ha hb

/-- Placing nodes one after the other never finds a node without a predecessor to take off. -/
theorem placeAll?_eq (h : Placing g s) (fuel : Nat) :
    g.placeAll? fuel s = some (g.placeAll fuel s) := by
  induction fuel generalizing s with
  | zero => rfl
  | succ fuel ih =>
    cases hqueue : s.queue with
    | nil => simp only [placeAll?, placeAll, hqueue]
    | cons a rest =>
      simp only [placeAll?, placeAll, hqueue, h.place?_eq hqueue, Option.bind_some]
      exact ih (h.place hqueue)

/-! ## The order -/

/-- What lies behind a cycle is a node. -/
theorem mem_nodes_of_behindCycle (h : BehindCycle g.successors a) : a ∈ g.nodes := by
  obtain ⟨c, hcycle, hreach⟩ := h
  cases hreach with
  | root hr =>
    cases List.mem_singleton.mp hr
    exact mem_nodes_of_onCycle hcycle
  | step _ ha => exact mem_nodes_of_mem_successors ha

/-- Ordering a graph places nodes until none is queued, without taking a predecessor off a node
    that has none left. The placed nodes and the others are all nodes of the graph, each once.
    What has an edge to a placed node is placed before it. The others are the nodes on a cycle or
    behind one, in the order of the graph, so that all nodes are placed if there is no cycle. -/
theorem topologicalOrder_exact (g : DependencyGraph α) :
    let t := g.topologicalOrder
    (t.ordered ++ t.unordered).Nodup ∧ (t.ordered ++ t.unordered).Perm g.nodes ∧
      (∀ u v, (u, v) ∈ g.edges → v ∈ t.ordered →
        u ∈ t.ordered ∧ t.ordered.idxOf u < t.ordered.idxOf v) ∧
      (∀ a, a ∈ t.unordered ↔ BehindCycle g.successors a) ∧ t.unordered.Sublist g.nodes ∧
      (t.isComplete = true ↔ ∀ a, ¬ OnCycle g.successors a) ∧
      g.placeAll? g.nodes.length g.start = some (g.placeAll g.nodes.length g.start) ∧
      (g.placeAll g.nodes.length g.start).queue = [] := by
  intro t
  refine ⟨g.sequence_perm.nodup_iff.mpr g.nodup_nodes, g.sequence_perm, ?_, ?_,
    List.filter_sublist, ?_, placeAll?_eq g.placing_start _,
    queue_placeAll g.placing_start (by omega)⟩
  · intro u v huv hv
    exact idxOf_ordered_lt_of_leadsTo (.of_mem (mem_successors.mpr huv)) hv
  -- What lies behind a circle is a node, since it has a predecessor.
  · intro a
    exact mem_unordered_iff.trans (and_iff_right_of_imp mem_nodes_of_behindCycle)
  · rw [TopologicalOrder.isComplete, List.isEmpty_iff, ← not_exists, ← unordered_ne_nil_iff,
      not_not]

-- A cycle with a node in front of it and one behind it.
example :
    let g := [(0, 1), (1, 2), (2, 1), (2, 3)].foldl (fun g e => g.addEdge e.1 e.2) empty
    g.topologicalOrder.ordered = [0] ∧ g.topologicalOrder.unordered = [1, 2, 3] := by
  decide

end HotRename.DependencyGraph
