import HotRename.Graph.Order

/-!
# Dependency graphs with interned nodes

The nodes stand in a table, each once and in the order of first mention, and a node is known by its
position there. Edges are pairs of positions, in the order in which they were added. To order such a
graph, its in-degrees and the marks of placed nodes are kept in tables beside that of the nodes. An
access to a table fails where the table has no such position.
-/

namespace HotRename

variable {α : Type}

/-- A table of nodes, and edges between its positions. -/
structure InternedGraph (α : Type) where
  nodes : List α
  edges : List (Nat × Nat)
deriving Repr, DecidableEq

namespace InternedGraph

/-- The graph without nodes. -/
def empty : InternedGraph α :=
  ⟨[], []⟩

instance : Inhabited (InternedGraph α) := ⟨empty⟩

/-- Number of nodes. -/
def nodeCount (g : InternedGraph α) : Nat :=
  g.nodes.length

/-- Number of edges. -/
def edgeCount (g : InternedGraph α) : Nat :=
  g.edges.length

/-- The positions that come right after a position, in the order of their edges. -/
def next (g : InternedGraph α) (i : Nat) : List Nat :=
  (g.edges.filter fun e => e.1 = i).map Prod.snd

variable [DecidableEq α]

/-- Mentions a node, which comes last if it is new. The answer is the position of the node. -/
def addNode (g : InternedGraph α) (a : α) : Nat × InternedGraph α :=
  match g.nodes.idxOf? a with
  | some i => (i, g)
  | none => (g.nodeCount, { g with nodes := g.nodes ++ [a] })

/-- Adds an edge, and mentions its ends. The answer says whether the edge is new. -/
def addEdge (g : InternedGraph α) (a b : α) : Bool × InternedGraph α :=
  let (i, g) := g.addNode a
  let (j, g) := g.addNode b
  if (i, j) ∈ g.edges then (false, g) else (true, { g with edges := g.edges ++ [(i, j)] })

/-- The node is in the graph. -/
def contains (g : InternedGraph α) (a : α) : Bool :=
  g.nodes.contains a

/-- The nodes that come right after a node, in the order of their edges. -/
def successors (g : InternedGraph α) (a : α) : List α :=
  match g.nodes.idxOf? a with
  | some i => (g.next i).filterMap fun j => g.nodes[j]?
  | none => []

/-- Every successor stands in the table of nodes. -/
theorem mem_nodes_of_mem_successors {g : InternedGraph α} {a b : α} (h : b ∈ g.successors a) :
    b ∈ g.nodes := by
  unfold successors at h
  split at h
  · obtain ⟨j, -, hj⟩ := List.mem_filterMap.mp h
    exact List.mem_of_getElem? hj
  · cases h

/-- A walk over a graph reaches finitely many nodes. -/
theorem finiteReach (g : InternedGraph α) (roots : List α) : FiniteReach g.successors roots :=
  .of_forall_mem roots g.nodes fun _ _ h => mem_nodes_of_mem_successors h

/-- The cycles found by walking from the given roots. -/
def cyclesFrom (g : InternedGraph α) (roots : List α) : List (List α) :=
  detectCycles g.successors roots (g.finiteReach roots)

omit [DecidableEq α]

/-! ## Ordering by in-degrees -/

/-- The state of the ordering. The tables have an entry for every node. -/
structure Progress (α : Type) where
  /-- For each position, the number of edges to it whose start is not placed yet. -/
  degrees : List Nat
  /-- For each position, whether it is placed. -/
  marks : List Bool
  /-- The positions to be placed next. -/
  queue : List Nat
  /-- The nodes placed so far. -/
  ordered : List α

/-- Counts an edge to a position. -/
def countEdge? (degrees : List Nat) (j : Nat) : Option (List Nat) := do
  let degree ← degrees[j]?
  return degrees.set j (degree + 1)

/-- For each position, the number of edges that lead to it. -/
def inDegrees? (g : InternedGraph α) : Option (List Nat) :=
  g.edges.foldlM (fun degrees e => countEdge? degrees e.2) (List.replicate g.nodeCount 0)

/-- The positions below `n` whose entries in a table pass a test. -/
def positions? {β : Type} (n : Nat) (table : List β) (test : β → Bool) : Option (List Nat) := do
  let entries ← (List.range n).mapM fun i => table[i]?.map fun entry => (i, entry)
  return (entries.filter fun e => test e.2).map Prod.fst

/-- The state before any node is placed. -/
def start? (g : InternedGraph α) : Option (Progress α) := do
  let degrees ← g.inDegrees?
  let queue ← positions? g.nodeCount degrees fun degree => degree = 0
  return { degrees, marks := List.replicate g.nodeCount false, queue, ordered := [] }

/-- Takes one edge off a position that has one left; it joins the queue when it has no other. -/
def release? (s : Progress α) (j : Nat) : Option (Progress α) := do
  let degree ← s.degrees[j]?
  -- With counts that cannot be negative, taking one off none would be an overflow.
  guard (degree ≠ 0)
  let left := degree - 1
  let queue := if left = 0 then s.queue ++ [j] else s.queue
  return { s with degrees := s.degrees.set j left, queue }

/-- Places a position that was taken off the queue and releases those right after it. -/
def place? (g : InternedGraph α) (i : Nat) (rest : List Nat) (s : Progress α) :
    Option (Progress α) := do
  -- The mark is set before the node is looked up; either access can fail.
  guard (i < s.marks.length)
  let a ← g.nodes[i]?
  let s := { s with marks := s.marks.set i true, queue := rest, ordered := s.ordered ++ [a] }
  (g.next i).foldlM release? s

/-- Places positions until the queue is empty, for which there are as many steps as `fuel` says. -/
def placeAll? (g : InternedGraph α) : (fuel : Nat) → Progress α → Option (Progress α)
  | 0, s => if s.queue = [] then some s else none
  | fuel + 1, s =>
    match s.queue with
    | [] => some s
    | i :: rest => (g.place? i rest s).bind (g.placeAll? fuel)

/-- Orders the nodes of a graph, unless a position is not in a table, an edge is taken off that is
    not there, or the queue is not empty after as many steps as there are nodes. -/
def topologicalOrder? (g : InternedGraph α) : Option (TopologicalOrder α) := do
  let s ← g.placeAll? g.nodeCount (← g.start?)
  let left ← positions? g.nodeCount s.marks fun mark => !mark
  let unordered ← left.mapM fun i => g.nodes[i]?
  return { ordered := s.ordered, unordered }

end InternedGraph
end HotRename
