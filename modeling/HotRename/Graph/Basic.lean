import HotRename.Graph.Cycles

/-!
# Dependency graphs

A dependency graph holds nodes in the order in which they were first mentioned and edges in the
order in which they were added; an edge `(a, b)` says that `b` comes after `a`. Every node and
every edge is there once, and the ends of every edge are nodes.
-/

namespace HotRename

variable {α : Type u}

/-- Nodes and edges in the order in which they were added, each once. -/
structure DependencyGraph (α : Type u) where
  nodes : List α
  edges : List (α × α)
  nodup_nodes : nodes.Nodup
  nodup_edges : edges.Nodup
  mem_nodes : ∀ e ∈ edges, e.1 ∈ nodes ∧ e.2 ∈ nodes

namespace DependencyGraph

/-- The graph without nodes. -/
def empty : DependencyGraph α :=
  ⟨[], [], List.nodup_nil, List.nodup_nil, by simp⟩

instance : Inhabited (DependencyGraph α) := ⟨empty⟩

variable [DecidableEq α]

/-- Mentions a node. -/
def addNode (g : DependencyGraph α) (a : α) : DependencyGraph α :=
  if h : a ∈ g.nodes then g
  else
    { g with
      nodes := g.nodes ++ [a]
      nodup_nodes := by
        rw [List.nodup_append]
        refine ⟨g.nodup_nodes, by simp, ?_⟩
        intro x hx y hy hxy
        simp only [List.mem_singleton] at hy
        subst hxy hy
        exact h hx
      mem_nodes := fun e he =>
        ⟨List.mem_append_left _ (g.mem_nodes e he).1, List.mem_append_left _ (g.mem_nodes e he).2⟩ }

/-- The nodes stay when a node is mentioned. -/
theorem mem_addNode {g : DependencyGraph α} {a b : α} :
    b ∈ (g.addNode a).nodes ↔ b ∈ g.nodes ∨ b = a := by
  unfold addNode
  split
  · next h => exact ⟨Or.inl, fun hb => hb.elim id fun hba => hba ▸ h⟩
  · simp

/-- The position of a node in the order of first mention. -/
def indexOf (g : DependencyGraph α) (a : α) : Nat :=
  g.nodes.idxOf a

/-- Adds an edge, and mentions its ends. -/
def addEdge (g : DependencyGraph α) (a b : α) : DependencyGraph α :=
  let h := (g.addNode a).addNode b
  if he : (a, b) ∈ h.edges then h
  else
    { h with
      edges := h.edges ++ [(a, b)]
      nodup_edges := by
        rw [List.nodup_append]
        refine ⟨h.nodup_edges, by simp, ?_⟩
        intro x hx y hy hxy
        simp only [List.mem_singleton] at hy
        subst hxy hy
        exact he hx
      mem_nodes := by
        intro e hmem
        rcases List.mem_append.mp hmem with hmem | hmem
        · exact h.mem_nodes e hmem
        · simp only [List.mem_singleton] at hmem
          subst hmem
          exact ⟨mem_addNode.mpr (.inl (mem_addNode.mpr (.inr rfl))), mem_addNode.mpr (.inr rfl)⟩ }

/-- The edge is in the graph. -/
def hasEdge (g : DependencyGraph α) (a b : α) : Bool :=
  g.edges.contains (a, b)

/-- The node is in the graph. -/
def contains (g : DependencyGraph α) (a : α) : Bool :=
  g.nodes.contains a

/-- The nodes that come right after a node, in the order of their edges. -/
def successors (g : DependencyGraph α) (a : α) : List α :=
  (g.edges.filter fun e => e.1 = a).map Prod.snd

/-- The successors of a node are read off the edges. -/
theorem mem_successors {g : DependencyGraph α} {a b : α} :
    b ∈ g.successors a ↔ (a, b) ∈ g.edges := by
  simp [successors]

/-- A walk over a graph reaches finitely many nodes. -/
theorem finiteReach (g : DependencyGraph α) (roots : List α) : FiniteReach g.successors roots :=
  .of_forall_mem roots g.nodes fun _ _ h => (g.mem_nodes _ (mem_successors.mp h)).2

/-- The cycles found by walking from the given roots. -/
def cyclesFrom (g : DependencyGraph α) (roots : List α) : List (List α) :=
  detectCycles g.successors roots (g.finiteReach roots)

end DependencyGraph
end HotRename
