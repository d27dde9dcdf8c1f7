import HotRename.Graph.Order
import HotRename.Proofs.Graph.Reach
import Mathlib.Data.List.Basic

/-!
# The order of a graph by in-degrees

While nodes are placed, the degree of a node is the number of its predecessors that are not placed
yet, and the nodes of degree zero are those placed or queued. So every predecessor of a placed node
is placed before it, and a node is never placed exactly if it lies behind a cycle. Main statements:

* `Placing.place`         placing one node keeps what is known of the nodes placed
* `placing_placeAll`      and so does placing nodes until the queue is empty
* `mem_ordered_iff`       the nodes that are placed are those behind no cycle
* `sequence_perm`         the sequence holds every node once
* `idxOf_sequence_lt`     a node behind no cycle comes before its successors
* `unordered_ne_nil_iff`  some node is left over if there is a cycle
-/

namespace HotRename.DependencyGraph

variable {α : Type u} [DecidableEq α] {g : DependencyGraph α} {s : Placement α} {a b : α}

/-- No edge is there twice, so no successor is listed twice. -/
theorem nodup_successors (g : DependencyGraph α) (a : α) : (g.successors a).Nodup := by
  rw [successors, List.Nodup, List.pairwise_map]
  refine (List.Pairwise.filter _ g.nodup_edges).imp_of_mem ?_
  intro e f he hf hne hsnd
  have he : e.1 = a := by simpa using (List.mem_filter.mp he).2
  have hf : f.1 = a := by simpa using (List.mem_filter.mp hf).2
  exact hne (Prod.ext (he.trans hf.symm) hsnd)

/-- The successors of nodes are nodes. -/
theorem mem_nodes_of_mem_successors (h : b ∈ g.successors a) : b ∈ g.nodes :=
  (g.mem_nodes _ (mem_successors.mp h)).2

/-- A cycle consists of nodes. -/
theorem mem_nodes_of_onCycle (h : OnCycle g.successors a) : a ∈ g.nodes := by
  cases h with
  | root ha => exact mem_nodes_of_mem_successors ha
  | step _ ha => exact mem_nodes_of_mem_successors ha

/-! ## Releasing and placing -/

/-- Number of predecessors of a node that are not among the given ones. -/
def waiting (g : DependencyGraph α) (placed : List α) (a : α) : Nat :=
  g.edges.countP fun e => e.2 = a ∧ e.1 ∉ placed

/-- A node has no predecessors left if all of them are placed. -/
theorem waiting_eq_zero {placed : List α} :
    g.waiting placed b = 0 ↔ ∀ a, b ∈ g.successors a → a ∈ placed := by
  simp only [waiting, List.countP_eq_zero, decide_eq_true_eq, not_and, Decidable.not_not,
    Prod.forall, mem_successors]
  exact ⟨fun h a hab => h a b hab rfl, fun h a b' hab hb => h a (hb ▸ hab)⟩

/-- Placing a node takes one predecessor off each of its successors. -/
theorem waiting_append {placed : List α} (ha : a ∉ placed) :
    g.waiting placed b =
      g.waiting (placed ++ [a]) b + if b ∈ g.successors a then 1 else 0 := by
  -- Said of any edges, since the induction takes them one by one.
  have hcount : ∀ edges : List (α × α), edges.countP (fun e => e.2 = b ∧ e.1 ∉ placed) =
      edges.countP (fun e => e.2 = b ∧ e.1 ∉ placed ++ [a]) + edges.count (a, b) := by
    intro edges
    induction edges with
    | nil => rfl
    | cons e edges ih =>
      rw [List.countP_cons, List.countP_cons, List.count_cons, ih]
      by_cases he : e = (a, b)
      · subst he
        simp [ha]
        omega
      -- Any other edge has another end, or a start that is placed in both cases or in none.
      · have hiff : (e.2 = b ∧ e.1 ∉ placed) ↔ (e.2 = b ∧ e.1 ∉ placed ++ [a]) := by
          simp only [List.mem_append, List.mem_singleton, not_or]
          refine and_congr_right fun hb => ⟨fun h => ⟨h, fun hea => he (Prod.ext hea hb)⟩, And.left⟩
        simp only [hiff, beq_iff_eq, he, if_false]
        omega
  rw [waiting, waiting, hcount, g.nodup_edges.count]
  simp only [mem_successors]

/-- Releasing several nodes takes one predecessor off each; those left with none are queued. -/
theorem foldl_release {bs : List α} (hbs : bs.Nodup) (s : Placement α) :
    bs.foldl release s =
      { degree := fun a => if a ∈ bs then s.degree a - 1 else s.degree a
        queue := s.queue ++ bs.filter fun b => s.degree b - 1 = 0
        placed := s.placed } := by
  induction bs generalizing s with
  | nil => simp
  | cons b bs ih =>
    obtain ⟨hb, hbs⟩ := List.nodup_cons.mp hbs
    rw [List.foldl_cons, ih hbs]
    -- The nodes still to be released keep their degree while `b` is released.
    have hkept : bs.filter (fun x => (release s b).degree x - 1 = 0) =
        bs.filter (fun x => s.degree x - 1 = 0) := by
      refine List.filter_congr fun x hx => ?_
      have hxb : x ≠ b := fun h => hb (h ▸ hx)
      simp [release, hxb]
    rw [hkept]
    simp only [release, List.mem_cons, List.filter_cons, decide_eq_true_eq, Placement.mk.injEq,
      and_true]
    constructor
    · funext a
      by_cases hab : a = b
      · subst hab
        simp [hb]
      · simp [hab]
    · split <;> simp

/-- What placing a node does: its successors lose a predecessor, and those without any join the
    queue. -/
theorem place_eq (g : DependencyGraph α) (a : α) (rest : List α) (s : Placement α) :
    g.place a rest s =
      { degree := fun b => if b ∈ g.successors a then s.degree b - 1 else s.degree b
        queue := rest ++ (g.successors a).filter fun b => s.degree b - 1 = 0
        placed := s.placed ++ [a] } := by
  rw [place, foldl_release (g.nodup_successors a)]

/-! ## What holds while nodes are placed -/

/-- What is known of the nodes placed so far. -/
structure Placing (g : DependencyGraph α) (s : Placement α) : Prop where
  /-- No node is placed or queued twice. -/
  nodup : (s.placed ++ s.queue).Nodup
  /-- The degree of a node counts its predecessors that are not placed. -/
  degree : ∀ a, s.degree a = g.waiting s.placed a
  /-- The nodes without such predecessors are placed or queued. -/
  mem_iff : ∀ a, a ∈ s.placed ++ s.queue ↔ a ∈ g.nodes ∧ s.degree a = 0
  /-- The predecessors of a placed node are placed before it. -/
  forward : ∀ a b, b ∈ g.successors a → b ∈ s.placed → s.placed.idxOf a < s.placed.idxOf b

/-- At the start no node is placed, and those without predecessors are queued. -/
theorem placing_start (g : DependencyGraph α) : Placing g g.start where
  nodup := by
    rw [start, List.nil_append]
    exact List.Pairwise.filter _ g.nodup_nodes
  degree a := by simp [start, inDegree, waiting]
  mem_iff a := by simp [start]
  forward _ _ _ hb := by simp [start] at hb

namespace Placing

/-- The node at the head of the queue is not placed, and all of its predecessors are. -/
theorem head (h : Placing g s) {rest : List α} (hqueue : s.queue = a :: rest) :
    a ∉ s.placed ∧ a ∈ g.nodes ∧ ∀ p, a ∈ g.successors p → p ∈ s.placed := by
  have hmem : a ∈ s.placed ++ s.queue := by simp [hqueue]
  obtain ⟨hnode, hdegree⟩ := (h.mem_iff a).mp hmem
  refine ⟨?_, hnode, ?_⟩
  · have hnodup := h.nodup
    rw [hqueue] at hnodup
    exact fun ha => (List.nodup_append.mp hnodup).2.2 a ha a List.mem_cons_self rfl
  · rw [h.degree] at hdegree
    exact waiting_eq_zero.mp hdegree

/-- The successors of a node that is not placed have a degree to lose. -/
theorem one_le_degree (h : Placing g s) (ha : a ∉ s.placed) (hb : b ∈ g.successors a) :
    1 ≤ s.degree b := by
  have hwaiting := waiting_append (g := g) (b := b) ha
  rw [if_pos hb] at hwaiting
  have hdegree := h.degree b
  omega

/-- A successor of a node that is not placed is neither placed nor queued. -/
theorem successor_not_mem (h : Placing g s) (ha : a ∉ s.placed) (hb : b ∈ g.successors a) :
    b ∉ s.placed ++ s.queue := by
  intro hmem
  have hzero := ((h.mem_iff b).mp hmem).2
  have hone := h.one_le_degree ha hb
  omega

/-- Placing the node at the head of the queue keeps what is known. -/
theorem place (h : Placing g s) {rest : List α} (hqueue : s.queue = a :: rest) :
    Placing g (g.place a rest s) := by
  obtain ⟨ha, hnode, hpred⟩ := h.head hqueue
  have hmem : ∀ b, b ∈ s.placed ++ [a] ++ rest ↔ b ∈ s.placed ++ s.queue := by
    intro b
    rw [hqueue, List.append_assoc, List.singleton_append]
  rw [place_eq]
  refine ⟨?_, ?_, ?_, ?_⟩
  · -- The nodes that join the queue had a degree, so they were not there before.
    show (s.placed ++ [a] ++ (rest ++ _)).Nodup
    rw [← List.append_assoc]
    refine List.nodup_append.mpr ⟨?_, List.Pairwise.filter _ (g.nodup_successors a), ?_⟩
    · rw [List.append_assoc, List.singleton_append, ← hqueue]
      exact h.nodup
    · intro x hx y hy hxy
      subst hxy
      exact h.successor_not_mem ha (List.mem_filter.mp hy).1 ((hmem x).mp hx)
  · intro b
    -- The degree falls by one exactly at the successors of the new node.
    have hwaiting := waiting_append (g := g) (b := b) ha
    have hdegree := h.degree b
    simp only
    split at hwaiting <;> rename_i hb <;> simp only [hb, if_true, if_false] <;> omega
  · intro b
    show b ∈ s.placed ++ [a] ++ (rest ++ _) ↔ _
    rw [← List.append_assoc, List.mem_append, hmem, h.mem_iff, List.mem_filter, decide_eq_true_eq]
    by_cases hb : b ∈ g.successors a
    -- A successor is queued now if the new node was its last predecessor.
    · have hone := h.one_le_degree ha hb
      have hbnode := mem_nodes_of_mem_successors hb
      simp only [hb, hbnode, true_and, if_true]
      omega
    · simp only [hb, false_and, or_false, if_false]
  · -- Only the new node can be the end of an edge whose start was not placed before.
    intro p b hpb hb
    show (s.placed ++ [a]).idxOf p < (s.placed ++ [a]).idxOf b
    rcases List.mem_append.mp hb with hb | hb
    · have hlt := h.forward p b hpb hb
      have hp : p ∈ s.placed := by
        rw [← List.idxOf_lt_length_iff]
        exact Nat.lt_trans hlt (List.idxOf_lt_length_iff.mpr hb)
      rw [List.idxOf_append_of_mem hp, List.idxOf_append_of_mem hb]
      exact hlt
    · have hba : b = a := List.mem_singleton.mp hb
      subst hba
      have hp := hpred p hpb
      rw [List.idxOf_append_of_mem hp, List.idxOf_append_of_notMem ha]
      have hlt := List.idxOf_lt_length_iff.mpr hp
      omega

end Placing

/-- Placing node after node keeps what is known. -/
theorem placing_placeAll (h : Placing g s) (fuel : Nat) : Placing g (g.placeAll fuel s) := by
  induction fuel generalizing s with
  | zero => exact h
  | succ fuel ih =>
    unfold placeAll
    split
    · exact h
    · rename_i a rest hqueue
      exact ih (h.place hqueue)

/-- With one step for each node that is not placed, the queue runs empty. -/
theorem queue_placeAll (h : Placing g s) {fuel : Nat}
    (hfuel : g.nodes.length ≤ s.placed.length + fuel) : (g.placeAll fuel s).queue = [] := by
  induction fuel generalizing s with
  | zero =>
    -- As many nodes are placed as there are, so none is queued besides.
    have hsub : s.placed ++ s.queue ⊆ g.nodes := fun a ha => ((h.mem_iff a).mp ha).1
    have hle := (List.subperm_of_subset h.nodup hsub).length_le
    rw [List.length_append] at hle
    exact List.length_eq_zero_iff.mp (by simp only [placeAll]; omega)
  | succ fuel ih =>
    unfold placeAll
    split
    · assumption
    · rename_i a rest hqueue
      refine ih (h.place hqueue) ?_
      rw [place_eq, List.length_append, List.length_singleton]
      omega

/-! ## The finished order -/

/-- What is known of the nodes when all possible ones are placed. -/
theorem placing_ordered (g : DependencyGraph α) :
    ∃ s, Placing g s ∧ s.queue = [] ∧ s.placed = g.topologicalOrder.ordered :=
  ⟨_, placing_placeAll g.placing_start _, queue_placeAll g.placing_start (by omega), rfl⟩

/-- No node is placed twice. -/
theorem nodup_ordered (g : DependencyGraph α) : g.topologicalOrder.ordered.Nodup := by
  obtain ⟨s, h, hqueue, hplaced⟩ := g.placing_ordered
  have hnodup := h.nodup
  rwa [hqueue, List.append_nil, hplaced] at hnodup

/-- A node is placed if it is a node and all of its predecessors are placed. -/
theorem mem_ordered_iff_predecessors :
    b ∈ g.topologicalOrder.ordered ↔
      b ∈ g.nodes ∧ ∀ a, b ∈ g.successors a → a ∈ g.topologicalOrder.ordered := by
  obtain ⟨s, h, hqueue, hplaced⟩ := g.placing_ordered
  have hmem := h.mem_iff b
  rwa [hqueue, List.append_nil, hplaced, h.degree, hplaced, waiting_eq_zero] at hmem

/-- A node is placed before its successors. -/
theorem idxOf_ordered_lt (hab : b ∈ g.successors a) (hb : b ∈ g.topologicalOrder.ordered) :
    g.topologicalOrder.ordered.idxOf a < g.topologicalOrder.ordered.idxOf b := by
  obtain ⟨s, h, -, hplaced⟩ := g.placing_ordered
  rw [← hplaced] at hb ⊢
  exact h.forward a b hab hb

/-- What leads to a placed node is placed before it. -/
theorem idxOf_ordered_lt_of_leadsTo (hab : LeadsTo g.successors a b)
    (hb : b ∈ g.topologicalOrder.ordered) :
    a ∈ g.topologicalOrder.ordered ∧
      g.topologicalOrder.ordered.idxOf a < g.topologicalOrder.ordered.idxOf b := by
  induction hab with
  | root hb' => exact ⟨(mem_ordered_iff_predecessors.mp hb).2 a hb', idxOf_ordered_lt hb' hb⟩
  | @step c b _ hcb ih =>
    have hc := (mem_ordered_iff_predecessors.mp hb).2 c hcb
    obtain ⟨ha, hlt⟩ := ih hc
    exact ⟨ha, Nat.lt_trans hlt (idxOf_ordered_lt hcb hb)⟩

/-- The nodes that are placed are those behind no cycle. -/
theorem mem_ordered_iff :
    a ∈ g.topologicalOrder.ordered ↔ a ∈ g.nodes ∧ ¬ BehindCycle g.successors a := by
  constructor
  · intro ha
    refine ⟨(mem_ordered_iff_predecessors.mp ha).1, ?_⟩
    rintro ⟨c, hcycle, hreach⟩
    -- A placed node on a cycle would be placed before itself.
    have hc : c ∈ g.topologicalOrder.ordered := by
      rcases hreach.eq_or_leadsTo with rfl | hlead
      · exact ha
      · exact (idxOf_ordered_lt_of_leadsTo hlead ha).1
    exact Nat.lt_irrefl _ (idxOf_ordered_lt_of_leadsTo hcycle hc).2
  · rintro ⟨hnode, hfree⟩
    by_contra ha
    let left := g.nodes.filter fun a => a ∉ g.topologicalOrder.ordered
    have hmem : ∀ x, x ∈ left ↔ x ∈ g.nodes ∧ x ∉ g.topologicalOrder.ordered := by
      intro x
      simp [left]
    -- Every node that is not placed has a predecessor that is not placed.
    have hpred : ∀ x ∈ left, ∃ p ∈ left, x ∈ g.successors p := by
      intro x hx
      obtain ⟨hxnode, hx⟩ := (hmem x).mp hx
      by_contra hnone
      refine hx (mem_ordered_iff_predecessors.mpr ⟨hxnode, fun p hp => ?_⟩)
      by_contra hpleft
      have hpnode := (g.mem_nodes _ (mem_successors.mp hp)).1
      exact hnone ⟨p, (hmem p).mpr ⟨hpnode, hpleft⟩, hp⟩
    exact hfree (behindCycle_of_predecessors hpred ((hmem a).mpr ⟨hnode, ha⟩))

/-- The nodes that are left over are those behind a cycle. -/
theorem mem_unordered_iff :
    a ∈ g.topologicalOrder.unordered ↔ a ∈ g.nodes ∧ BehindCycle g.successors a := by
  have hunordered : g.topologicalOrder.unordered =
      g.nodes.filter fun a => a ∉ g.topologicalOrder.ordered := rfl
  rw [hunordered, List.mem_filter, decide_eq_true_eq, mem_ordered_iff]
  constructor
  · rintro ⟨hnode, h⟩
    exact ⟨hnode, by_contra fun hfree => h ⟨hnode, hfree⟩⟩
  · rintro ⟨hnode, h⟩
    exact ⟨hnode, fun hfree => hfree.2 h⟩

/-- The placed nodes and the others are all nodes, each once. -/
theorem sequence_perm (g : DependencyGraph α) : g.topologicalOrder.sequence.Perm g.nodes := by
  -- No node is both placed and left over.
  have hdisjoint : ∀ x ∈ g.topologicalOrder.ordered, ∀ y ∈ g.topologicalOrder.unordered,
      x ≠ y := by
    intro x hx y hy hxy
    subst hxy
    exact (mem_ordered_iff.mp hx).2 (mem_unordered_iff.mp hy).2
  have hnodup : g.topologicalOrder.sequence.Nodup :=
    List.nodup_append.mpr ⟨g.nodup_ordered, List.Pairwise.filter _ g.nodup_nodes, hdisjoint⟩
  refine (List.perm_ext_iff_of_nodup hnodup g.nodup_nodes).mpr fun a => ?_
  rw [TopologicalOrder.sequence, List.mem_append, mem_ordered_iff, mem_unordered_iff]
  tauto

/-- The nodes behind no cycle come before the others. -/
theorem idxOf_sequence_lt_of_behindCycle (ha : a ∈ g.nodes)
    (hfree : ¬ BehindCycle g.successors a) (hb : BehindCycle g.successors b) :
    g.topologicalOrder.sequence.idxOf a < g.topologicalOrder.sequence.idxOf b := by
  have hmem := mem_ordered_iff.mpr ⟨ha, hfree⟩
  have hnot : b ∉ g.topologicalOrder.ordered := fun h => (mem_ordered_iff.mp h).2 hb
  rw [TopologicalOrder.sequence, List.idxOf_append_of_mem hmem, List.idxOf_append_of_notMem hnot]
  have hlt := List.idxOf_lt_length_iff.mpr hmem
  omega

/-- A node behind no cycle comes before its successors. -/
theorem idxOf_sequence_lt (hfree : ¬ BehindCycle g.successors a) (hab : b ∈ g.successors a) :
    g.topologicalOrder.sequence.idxOf a < g.topologicalOrder.sequence.idxOf b := by
  have ha := (g.mem_nodes _ (mem_successors.mp hab)).1
  -- The successor is left over, or it is placed like the node itself.
  by_cases hb : BehindCycle g.successors b
  · exact idxOf_sequence_lt_of_behindCycle ha hfree hb
  · have hbmem := mem_ordered_iff.mpr ⟨mem_nodes_of_mem_successors hab, hb⟩
    have hamem := mem_ordered_iff.mpr ⟨ha, hfree⟩
    rw [TopologicalOrder.sequence, List.idxOf_append_of_mem hamem,
      List.idxOf_append_of_mem hbmem]
    exact idxOf_ordered_lt hab hbmem

/-- Some node is never placed exactly if some node lies on a cycle. -/
theorem unordered_ne_nil_iff : g.topologicalOrder.unordered ≠ [] ↔ ∃ a, OnCycle g.successors a := by
  constructor
  · intro hne
    obtain ⟨a, ha⟩ := List.exists_mem_of_ne_nil _ hne
    obtain ⟨c, hcycle, -⟩ := (mem_unordered_iff.mp ha).2
    exact ⟨c, hcycle⟩
  · rintro ⟨a, ha⟩
    exact List.ne_nil_of_mem (mem_unordered_iff.mpr ⟨mem_nodes_of_onCycle ha, ha.behindCycle⟩)

end HotRename.DependencyGraph
