import HotRename.Graph.Basic
import HotRename.Proofs.List

/-!
# Nodes and edges of a growing graph

What mentioning nodes and adding edges does to the lists of nodes and edges. A node that is new
comes last, and an edge adds no node besides its ends.
-/

namespace HotRename.DependencyGraph

variable {α : Type u} [DecidableEq α] {g : DependencyGraph α} {a b : α} {e : α × α}

/-- A new node comes last. -/
theorem nodes_addNode (g : DependencyGraph α) (a : α) :
    (g.addNode a).nodes = appendNew g.nodes a := by
  unfold addNode appendNew
  split <;> rfl

@[simp] theorem edges_addNode (g : DependencyGraph α) (a : α) : (g.addNode a).edges = g.edges := by
  unfold addNode
  split <;> rfl

/-- Mentioning a node again changes nothing. -/
theorem addNode_of_mem (h : a ∈ g.nodes) : g.addNode a = g :=
  dif_pos h

/-- An edge mentions its ends, the first one first. -/
theorem nodes_addEdge (g : DependencyGraph α) (a b : α) :
    (g.addEdge a b).nodes = ((g.addNode a).addNode b).nodes := by
  simp only [addEdge]
  split <;> rfl

/-- A new edge comes last. -/
theorem edges_addEdge (g : DependencyGraph α) (a b : α) :
    (g.addEdge a b).edges = appendNew g.edges (a, b) := by
  simp only [addEdge, edges_addNode, appendNew]
  split <;> simp

/-- An edge from a node of the graph mentions its end only. -/
theorem nodes_addEdge_of_mem (ha : a ∈ g.nodes) (b : α) :
    (g.addEdge a b).nodes = (g.addNode b).nodes := by
  rw [nodes_addEdge, addNode_of_mem ha]

/-- The edges are those that were there, and the new one. -/
theorem mem_edges_addEdge : e ∈ (g.addEdge a b).edges ↔ e ∈ g.edges ∨ e = (a, b) := by
  rw [edges_addEdge, appendNew]
  split
  · rename_i hold
    exact ⟨.inl, fun h => h.elim id fun he => he ▸ hold⟩
  · simp

/-! ## Several nodes or edges at once -/

/-- Mentioning nodes adds those that are new, in the order of their first mention. -/
theorem nodes_foldl_addNode (g : DependencyGraph α) (bs : List α) :
    (bs.foldl addNode g).nodes = g.nodes ++ (bs.filter (· ∉ g.nodes)).eraseDups := by
  rw [← foldl_appendNew]
  exact (List.foldl_hom nodes fun g b => (nodes_addNode g b).symm).symm

/-- Mentioning nodes adds no edges. -/
theorem edges_foldl_addNode (g : DependencyGraph α) (bs : List α) :
    (bs.foldl addNode g).edges = g.edges := by
  induction bs generalizing g with
  | nil => rfl
  | cons b bs ih => rw [List.foldl_cons, ih, edges_addNode]

/-- Edges from a node of the graph mention their ends only. -/
theorem nodes_foldl_addEdge (ha : a ∈ g.nodes) (bs : List α) :
    (bs.foldl (fun g b => g.addEdge a b) g).nodes = (bs.foldl addNode g).nodes := by
  -- Said of any two graphs with the same nodes, so that the induction goes through.
  have hcongr : ∀ {h : DependencyGraph α}, g.nodes ⊆ h.nodes → ∀ {k : DependencyGraph α},
      h.nodes = k.nodes →
      (bs.foldl (fun g b => g.addEdge a b) h).nodes = (bs.foldl addNode k).nodes := by
    induction bs with
    | nil => exact fun _ _ heq => heq
    | cons b bs ih =>
      intro h hsub k heq
      refine ih ?_ ?_
      · rw [nodes_addEdge_of_mem (hsub ha)]
        exact fun x hx => mem_addNode.mpr (.inl (hsub hx))
      · rw [nodes_addEdge_of_mem (hsub ha), nodes_addNode, nodes_addNode, heq]
  exact hcongr (fun _ hx => hx) rfl

/-- Several edges from one node are added like single ones. -/
theorem mem_edges_foldl_addEdge (bs : List α) :
    e ∈ (bs.foldl (fun g b => g.addEdge a b) g).edges ↔ e ∈ g.edges ∨ ∃ b ∈ bs, e = (a, b) := by
  induction bs generalizing g with
  | nil => simp
  | cons b bs ih =>
    rw [List.foldl_cons, ih, mem_edges_addEdge, or_assoc]
    simp

end HotRename.DependencyGraph
