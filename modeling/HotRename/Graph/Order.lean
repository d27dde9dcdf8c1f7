import HotRename.Graph.Basic

/-!
# Ordering a graph by in-degrees

Nodes without predecessors are queued in the order of the graph. The node at the head of the queue
is placed next; it releases its successors one after the other, and a successor whose last
predecessor has been placed joins the queue. Nodes that are never released lie on a cycle or
behind one.
-/

namespace HotRename

variable {α : Type u}

/-- The result of ordering a graph. -/
structure TopologicalOrder (α : Type u) where
  /-- The nodes that could be placed; every edge between them points forward. -/
  ordered : List α
  /-- The other nodes, in the order of the graph. -/
  unordered : List α

namespace TopologicalOrder

/-- Every node was placed. -/
def isComplete (t : TopologicalOrder α) : Bool :=
  t.unordered.isEmpty

/-- The placed nodes followed by the others. -/
def sequence (t : TopologicalOrder α) : List α :=
  t.ordered ++ t.unordered

end TopologicalOrder

namespace DependencyGraph

variable [DecidableEq α]

/-- The state of the ordering. -/
structure Placement (α : Type u) where
  /-- For each node, the number of its predecessors that are not placed yet. -/
  degree : α → Nat
  /-- The nodes to be placed next. -/
  queue : List α
  /-- The nodes placed so far. -/
  placed : List α

/-- Number of edges that lead to a node. -/
def inDegree (g : DependencyGraph α) (a : α) : Nat :=
  g.edges.countP fun e => e.2 = a

/-- The state before any node is placed. -/
def start (g : DependencyGraph α) : Placement α where
  degree := g.inDegree
  queue := g.nodes.filter fun a => g.inDegree a = 0
  placed := []

/-- Takes one predecessor off a node, which joins the queue when none is left. -/
def release (s : Placement α) (b : α) : Placement α :=
  let left := s.degree b - 1
  { s with
    degree := fun a => if a = b then left else s.degree a
    queue := if left = 0 then s.queue ++ [b] else s.queue }

/-- Places a node that was taken off the queue and releases its successors. -/
def place (g : DependencyGraph α) (a : α) (rest : List α) (s : Placement α) : Placement α :=
  (g.successors a).foldl release { s with queue := rest, placed := s.placed ++ [a] }

/-- Places nodes until the queue is empty, at most as many as `fuel` says. -/
def placeAll (g : DependencyGraph α) : (fuel : Nat) → Placement α → Placement α
  | 0, s => s
  | fuel + 1, s =>
    match s.queue with
    | [] => s
    | a :: rest => placeAll g fuel (g.place a rest s)

/-- Orders the nodes of a graph. No node is placed twice, so there are at most as many steps as
    nodes. -/
def topologicalOrder (g : DependencyGraph α) : TopologicalOrder α :=
  let placed := (g.placeAll g.nodes.length g.start).placed
  { ordered := placed, unordered := g.nodes.filter fun a => a ∉ placed }

end DependencyGraph
end HotRename
