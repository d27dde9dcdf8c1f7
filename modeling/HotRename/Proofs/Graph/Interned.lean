import HotRename.Graph.Interned
import HotRename.Proofs.Graph.ExactOrder
import HotRename.Proofs.Graph.Insert

/-!
# Interned graphs as plain graphs

A plain graph can be laid out as an interned one: each node becomes its position. Mentioning nodes,
adding edges and ordering commute with this, and so an interned graph shows no more than the plain
list of the calls that built it. Main statements:

* `addNode_interned`, `addEdge_interned`  one call, on the plain graph and on its layout
* `release?_layout`, `place?_layout`      one step of the ordering, likewise
* `topologicalOrder?_interned`            ordering a layout finds every position in its tables
* `shows_run`                             what a graph shows after any calls
-/

namespace HotRename

variable {α : Type} [DecidableEq α]

namespace DependencyGraph

variable {d : DependencyGraph α} {a b : α}

/-! ## Positions -/

/-- The graph with its nodes replaced by their positions in the edges. -/
def interned (d : DependencyGraph α) : InternedGraph α :=
  ⟨d.nodes, d.edges.map fun e => (d.indexOf e.1, d.indexOf e.2)⟩

/-- The position of a node is one of the table. -/
theorem indexOf_lt (ha : a ∈ d.nodes) : d.indexOf a < d.nodes.length :=
  List.idxOf_lt_length_iff.mpr ha

/-- Nodes are told apart by their positions. -/
theorem indexOf_inj (ha : a ∈ d.nodes) : d.indexOf a = d.indexOf b ↔ a = b :=
  List.idxOf_inj ha

/-- At its position the table has the node. -/
theorem getElem?_indexOf (ha : a ∈ d.nodes) : d.nodes[d.indexOf a]? = some a :=
  List.getElem?_idxOf ha

/-- A node of the graph is found in the table. -/
theorem idxOf?_of_mem (ha : a ∈ d.nodes) : d.nodes.idxOf? a = some (d.indexOf a) := by
  obtain ⟨i, hi⟩ := Option.isSome_iff_exists.mp (List.isSome_idxOf?.mpr ha)
  rw [hi, indexOf, List.idxOf_eq_getD_idxOf?, hi, Option.getD_some]

/-- A node keeps its position when others are mentioned. -/
theorem indexOf_addNode (ha : a ∈ d.nodes) (b : α) : (d.addNode b).indexOf a = d.indexOf a := by
  simp only [indexOf, nodes_addNode, appendNew]
  split
  · rfl
  · exact List.idxOf_append_of_mem ha

/-- A new node goes to the end of the table, and leaves the edges as they are. -/
theorem interned_addNode_of_notMem (ha : a ∉ d.nodes) :
    (d.addNode a).interned = { d.interned with nodes := d.nodes ++ [a] } := by
  have hedges : ∀ e ∈ d.edges, ((d.addNode a).indexOf e.1, (d.addNode a).indexOf e.2) =
      (d.indexOf e.1, d.indexOf e.2) := by
    intro e he
    obtain ⟨hfst, hsnd⟩ := d.mem_nodes e he
    rw [indexOf_addNode hfst, indexOf_addNode hsnd]
  simp only [interned, edges_addNode, List.map_congr_left hedges, nodes_addNode, appendNew, ha,
    if_false]

/-! ## One call -/

/-- Mentioning a node in the layout is mentioning it in the plain graph. -/
theorem addNode_interned (d : DependencyGraph α) (a : α) :
    d.interned.addNode a = ((d.addNode a).indexOf a, (d.addNode a).interned) := by
  by_cases ha : a ∈ d.nodes
  · rw [addNode_of_mem ha, InternedGraph.addNode]
    simp only [interned, idxOf?_of_mem ha]
  -- A new node stands behind all others.
  · have hposition : (d.addNode a).indexOf a = d.nodes.length := by
      simp [indexOf, nodes_addNode, appendNew, ha, List.idxOf_append_of_notMem ha]
    have hnone : d.interned.nodes.idxOf? a = none := List.idxOf?_eq_none_iff.mpr ha
    rw [interned_addNode_of_notMem ha, hposition, InternedGraph.addNode, hnone]
    rfl

/-- The positions of two nodes are an edge if the nodes are. -/
theorem mem_edges_interned :
    (d.indexOf a, d.indexOf b) ∈ d.interned.edges ↔ (a, b) ∈ d.edges := by
  constructor
  · intro h
    obtain ⟨e, he, hpositions⟩ := List.mem_map.mp h
    obtain ⟨hfst, hsnd⟩ := Prod.mk.inj hpositions
    -- The ends of an edge are nodes, and nodes are told apart by their positions.
    obtain ⟨hefst, hesnd⟩ := d.mem_nodes e he
    have hea : e = (a, b) := Prod.ext ((indexOf_inj hefst).mp hfst) ((indexOf_inj hesnd).mp hsnd)
    exact hea ▸ he
  · exact fun h => List.mem_map_of_mem (f := fun e => (d.indexOf e.1, d.indexOf e.2)) h

/-- The layout of a new edge, once its ends are mentioned. -/
theorem interned_addEdge_of_notMem (h : (a, b) ∉ d.edges) :
    let ends := (d.addNode a).addNode b
    (d.addEdge a b).interned =
      ⟨ends.nodes, ends.interned.edges ++ [(ends.indexOf a, ends.indexOf b)]⟩ := by
  intro ends
  have hnew : (a, b) ∉ ends.edges := by simpa [ends] using h
  rw [addEdge, dif_neg hnew]
  simp only [interned, List.map_append]
  rfl

/-- Adding an edge to the layout is adding it to the plain graph; the answer says whether it was
    new. -/
theorem addEdge_interned (d : DependencyGraph α) (a b : α) :
    d.interned.addEdge a b = (!d.hasEdge a b, (d.addEdge a b).interned) := by
  have ha : a ∈ (d.addNode a).nodes := mem_addNode.mpr (.inr rfl)
  have hedge := mem_edges_interned (d := (d.addNode a).addNode b) (a := a) (b := b)
  rw [edges_addNode, edges_addNode] at hedge
  -- The first position is still that of `a` when `b` has been mentioned.
  simp only [InternedGraph.addEdge, addNode_interned, ← indexOf_addNode ha b, hedge, hasEdge,
    List.contains_eq_mem]
  by_cases h : (a, b) ∈ d.edges
  · simp [h, addEdge]
  · simp only [h, if_false, decide_false, Bool.not_false, interned_addEdge_of_notMem h]
    rfl

/-! ## Successors -/

/-- The positions right after that of a node, in the order of the edges. -/
theorem next_interned (d : DependencyGraph α) (a : α) :
    d.interned.next (d.indexOf a) = (d.successors a).map d.indexOf := by
  have hstart : ∀ e ∈ d.edges, decide (d.indexOf e.1 = d.indexOf a) = decide (e.1 = a) := by
    intro e he
    exact decide_eq_decide.mpr (indexOf_inj (d.mem_nodes e he).1)
  simp only [InternedGraph.next, interned, successors, List.filter_map, List.map_map,
    Function.comp_def, List.filter_congr hstart]

/-- What is no node has no successors. -/
theorem successors_of_notMem (ha : a ∉ d.nodes) : d.successors a = [] := by
  refine List.eq_nil_iff_forall_not_mem.mpr fun b hb => ?_
  exact ha (d.mem_nodes _ (mem_successors.mp hb)).1

/-- The positions right after that of a node are those of the nodes right after it. -/
theorem successors_interned (d : DependencyGraph α) (a : α) :
    d.interned.successors a = d.successors a := by
  by_cases ha : a ∈ d.nodes
  · have hposition : d.interned.nodes.idxOf? a = some (d.indexOf a) := idxOf?_of_mem ha
    simp only [InternedGraph.successors, hposition, next_interned, List.filterMap_map]
    exact filterMap_eq_self fun b hb => getElem?_indexOf (mem_nodes_of_mem_successors hb)
  · have hnone : d.interned.nodes.idxOf? a = none := List.idxOf?_eq_none_iff.mpr ha
    simp only [InternedGraph.successors, hnone, successors_of_notMem ha]

/-- The cycles that a cascade looks for in the plain graph are those of the interned one. -/
theorem cyclesFrom_interned (d : DependencyGraph α) (roots : List α) :
    d.interned.cyclesFrom roots = d.cyclesFrom roots := by
  have hnext : d.interned.successors = d.successors := funext d.successors_interned
  unfold InternedGraph.cyclesFrom cyclesFrom
  -- The two searches differ in their successor functions, and so in why they end.
  generalize d.interned.finiteReach roots = finite
  revert finite
  rw [hnext]
  exact fun _ => rfl

/-! ## Tables

A table beside that of the nodes holds a value for each node. -/

/-- The table of the values that a function has at the nodes. -/
def table {β : Type} (d : DependencyGraph α) (f : α → β) : List β :=
  d.nodes.map f

section Table

variable {β : Type} {f : α → β}

omit [DecidableEq α] in
/-- A table has an entry for each node. -/
@[simp] theorem length_table : (d.table f).length = d.nodes.length :=
  List.length_map f

/-- The entry at the position of a node is the value there. -/
theorem getElem?_table (ha : a ∈ d.nodes) : (d.table f)[d.indexOf a]? = some (f a) := by
  rw [table, List.getElem?_map, getElem?_indexOf ha, Option.map_some]

/-- The position of a node is the only one at which it stands. -/
theorem indexOf_eq_iff {i : Nat} (hi : i < d.nodes.length) (ha : a ∈ d.nodes) :
    d.indexOf a = i ↔ d.nodes[i] = a := by
  constructor
  · intro h
    subst h
    exact List.getElem_idxOf hi
  · intro h
    subst h
    exact d.nodup_nodes.idxOf_getElem i hi

/-- Setting an entry changes the value at one node. -/
theorem set_table (ha : a ∈ d.nodes) (v : β) :
    (d.table f).set (d.indexOf a) v = d.table fun x => if x = a then v else f x := by
  refine List.ext_getElem (by simp) fun i hi _ => ?_
  have hi : i < d.nodes.length := by simpa using hi
  simp only [table, List.getElem_set, List.getElem_map, indexOf_eq_iff hi ha]

/-- The positions in ascending order are those of the nodes in their order. -/
theorem range_eq (d : DependencyGraph α) :
    List.range d.nodes.length = d.nodes.map d.indexOf := by
  refine List.ext_getElem (by simp) fun i hi _ => ?_
  have hi : i < d.nodes.length := by simpa using hi
  simp [indexOf, d.nodup_nodes.idxOf_getElem i hi]

/-- The positions whose entries pass a test are those of the nodes whose values do. -/
theorem positions?_table (d : DependencyGraph α) (f : α → β) (test : β → Bool) :
    InternedGraph.positions? d.nodes.length (d.table f) test =
      some ((d.nodes.filter fun a => test (f a)).map d.indexOf) := by
  have hentries : ((d.nodes.map d.indexOf).mapM fun i =>
      (d.table f)[i]?.map fun entry => (i, entry)) =
        some (d.nodes.map fun a => (d.indexOf a, f a)) :=
    mapM_map_eq_map fun a ha => by rw [getElem?_table ha, Option.map_some]
  simp only [InternedGraph.positions?, range_eq, hentries, Option.bind_eq_bind, Option.bind_some,
    List.filter_map, List.map_map, Function.comp_def]
  rfl

end Table

/-! ## Ordering -/

/-- The state of the ordering, laid out in tables. -/
def layout (d : DependencyGraph α) (s : Placement α) : InternedGraph.Progress α where
  degrees := d.table s.degree
  marks := d.table fun a => decide (a ∈ s.placed)
  queue := s.queue.map d.indexOf
  ordered := s.placed

/-- Counting an edge adds one to the value at its end. -/
theorem countEdge?_table (hb : b ∈ d.nodes) (f : α → Nat) :
    InternedGraph.countEdge? (d.table f) (d.indexOf b) =
      some (d.table fun a => f a + if b = a then 1 else 0) := by
  simp only [InternedGraph.countEdge?, getElem?_table hb, Option.bind_eq_bind, Option.bind_some,
    set_table hb]
  refine congrArg some (List.map_congr_left fun a _ => ?_)
  by_cases hab : a = b
  · simp [hab]
  · simp [hab, Ne.symm hab]

/-- Counting edges one after the other gives the number of edges to each node. -/
theorem foldlM_countEdge? (f : α → Nat) {edges : List (α × α)}
    (hedges : ∀ e ∈ edges, e.2 ∈ d.nodes) :
    (edges.map fun e => (d.indexOf e.1, d.indexOf e.2)).foldlM
      (fun degrees e => InternedGraph.countEdge? degrees e.2) (d.table f) =
        some (d.table fun a => f a + edges.countP fun e => e.2 = a) := by
  -- `f` holds the counts so far, which differ from edge to edge.
  induction edges generalizing f with
  | nil => simp
  | cons e edges ih =>
    obtain ⟨hend, hrest⟩ := List.forall_mem_cons.mp hedges
    simp only [List.map_cons, List.foldlM_cons, countEdge?_table hend, Option.bind_eq_bind,
      Option.bind_some, ih _ hrest]
    refine congrArg some (List.map_congr_left fun a _ => ?_)
    rw [List.countP_cons]
    simp only [decide_eq_true_eq]
    omega

/-- The table of in-degrees. -/
theorem inDegrees?_interned (d : DependencyGraph α) :
    d.interned.inDegrees? = some (d.table d.inDegree) := by
  have hzero : List.replicate d.nodes.length 0 = d.table fun _ => 0 := by simp [table]
  have hcount := foldlM_countEdge? (fun _ => 0) fun e he => (d.mem_nodes e he).2
  simp only [Nat.zero_add] at hcount
  rw [InternedGraph.inDegrees?, InternedGraph.nodeCount, interned, hzero, hcount]
  rfl

/-- The tables at the start. -/
theorem start?_interned (d : DependencyGraph α) :
    d.interned.start? = some (d.layout d.start) := by
  have hmarks : List.replicate d.nodes.length false =
      d.table fun a => decide (a ∈ ([] : List α)) := by
    simp [table]
  simp only [InternedGraph.start?, inDegrees?_interned, Option.bind_eq_bind, Option.bind_some]
  rw [show d.interned.nodeCount = d.nodes.length from rfl, positions?_table, hmarks]
  rfl

/-- One predecessor is taken off a node, in the plain state and in the tables. -/
theorem release?_layout (hb : b ∈ d.nodes) (s : Placement α) :
    InternedGraph.release? (d.layout s) (d.indexOf b) = (release? s b).map d.layout := by
  have hdegree : (d.layout s).degrees[d.indexOf b]? = some (s.degree b) := getElem?_table hb
  simp only [InternedGraph.release?, hdegree, Option.bind_eq_bind, Option.bind_some, release?]
  -- Where there is nothing to take off, neither of them goes on.
  by_cases hzero : s.degree b = 0
  · simp [hzero]
  · have hset := set_table (f := s.degree) hb (s.degree b - 1)
    simp only [hzero, layout, hset, release, guard, ne_eq, not_false_eq_true, if_true, if_false,
      Option.pure_def, Option.bind_some, Option.map_some]
    split <;> simp

/-- Nodes are released one after the other, in the plain state and in the tables. -/
theorem foldlM_release?_layout {bs : List α} (hbs : ∀ b ∈ bs, b ∈ d.nodes) (s : Placement α) :
    (bs.map d.indexOf).foldlM InternedGraph.release? (d.layout s) =
      (bs.foldlM release? s).map d.layout := by
  induction bs generalizing s with
  | nil => rfl
  | cons b bs ih =>
    obtain ⟨hb, hrest⟩ := List.forall_mem_cons.mp hbs
    simp only [List.map_cons, List.foldlM_cons, release?_layout hb, Option.bind_eq_bind]
    cases release? s b with
    | none => rfl
    | some s => exact ih hrest s

/-- One node is placed, in the plain state and in the tables. -/
theorem place?_layout (ha : a ∈ d.nodes) (rest : List α) (s : Placement α) :
    d.interned.place? (d.indexOf a) (rest.map d.indexOf) (d.layout s) =
      (d.place? a rest s).map d.layout := by
  have hmark : d.indexOf a < (d.layout s).marks.length := by
    simpa [layout] using indexOf_lt ha
  have hnode : d.interned.nodes[d.indexOf a]? = some a := getElem?_indexOf ha
  have hmarks : (d.layout s).marks.set (d.indexOf a) true =
      d.table fun x => decide (x ∈ s.placed ++ [a]) := by
    refine (set_table ha true).trans (List.map_congr_left fun x _ => ?_)
    by_cases hxa : x = a <;> simp [hxa]
  simp only [InternedGraph.place?, hmark, guard, if_true, hnode, next_interned, hmarks, place?,
    Option.bind_eq_bind, Option.pure_def, Option.bind_some]
  exact foldlM_release?_layout (fun b hb => mem_nodes_of_mem_successors hb)
    { s with queue := rest, placed := s.placed ++ [a] }

/-- Placing nodes until the queue is empty finds every position in the tables, takes edges off
    positions that have some, and needs no more steps than there are nodes. -/
theorem placeAll?_layout {s : Placement α} (h : Placing d s) {fuel : Nat}
    (hfuel : d.nodes.length ≤ s.placed.length + fuel) :
    d.interned.placeAll? fuel (d.layout s) = some (d.layout (d.placeAll fuel s)) := by
  induction fuel generalizing s with
  | zero =>
    -- As many nodes as there are have been placed, so none waits any more.
    have hqueue : s.queue = [] := queue_placeAll h hfuel
    have hlayout : (d.layout s).queue = [] := by simp [layout, hqueue]
    simp only [InternedGraph.placeAll?, placeAll, hlayout, if_true]
  | succ fuel ih =>
    cases hqueue : s.queue with
    | nil =>
      have hlayout : (d.layout s).queue = [] := by simp [layout, hqueue]
      simp only [InternedGraph.placeAll?, placeAll, hlayout, hqueue]
    | cons a rest =>
      obtain ⟨-, hnode, -⟩ := h.head hqueue
      have hlayout : (d.layout s).queue = d.indexOf a :: rest.map d.indexOf := by
        simp [layout, hqueue]
      -- One node more is placed, with one step less.
      have hsteps : d.nodes.length ≤ (d.place a rest s).placed.length + fuel := by
        rw [place_eq, List.length_append, List.length_singleton]
        omega
      simp only [InternedGraph.placeAll?, placeAll, hlayout, hqueue, place?_layout hnode,
        h.place?_eq hqueue, Option.map_some, Option.bind_some]
      exact ih (h.place hqueue) hsteps

/-- Ordering a layout does not fail, and gives the order of the plain graph. -/
theorem topologicalOrder?_interned (d : DependencyGraph α) :
    d.interned.topologicalOrder? = some d.topologicalOrder := by
  have hplaced := placeAll?_layout d.placing_start (Nat.le_add_left d.nodes.length _)
  -- The positions that are left over are turned back into nodes.
  have hunordered : ∀ left : List α, (∀ a ∈ left, a ∈ d.nodes) →
      (left.map d.indexOf).mapM (fun i => d.interned.nodes[i]?) = some left :=
    fun left hleft => mapM_map_eq_some fun a ha => getElem?_indexOf (hleft a ha)
  simp only [InternedGraph.topologicalOrder?, start?_interned, Option.bind_eq_bind,
    Option.bind_some]
  rw [show d.interned.nodeCount = d.nodes.length from rfl, hplaced, Option.bind_some, layout,
    positions?_table, Option.bind_some, hunordered _ fun a ha => (List.mem_filter.mp ha).1]
  simp [topologicalOrder]

end DependencyGraph

namespace InternedGraph

/-! ## Any calls -/

/-- A call that lets a graph grow. -/
inductive Call (α : Type) where
  | node (a : α)
  | edge (a b : α)

namespace Call

/-- The nodes that a call mentions. -/
def mentions : Call α → List α
  | node a => [a]
  | edge a b => [a, b]

/-- The pair of nodes that a call adds as an edge. -/
def pair? : Call α → Option (α × α)
  | node _ => none
  | edge a b => some (a, b)

/-- The graph after a call. -/
def apply (g : InternedGraph α) : Call α → InternedGraph α
  | node a => (g.addNode a).2
  | edge a b => (g.addEdge a b).2

/-- The plain graph after a call. -/
def applyPlain (d : DependencyGraph α) : Call α → DependencyGraph α
  | node a => d.addNode a
  | edge a b => d.addEdge a b

/-- A call on the layout is the call on the plain graph. -/
theorem apply_interned (d : DependencyGraph α) (c : Call α) :
    apply d.interned c = (applyPlain d c).interned := by
  cases c with
  | node a => simp only [apply, applyPlain, d.addNode_interned]
  | edge a b => simp only [apply, applyPlain, d.addEdge_interned]

/-- A call adds the nodes that it mentions. -/
theorem nodes_applyPlain (d : DependencyGraph α) (c : Call α) :
    (applyPlain d c).nodes = c.mentions.foldl appendNew d.nodes := by
  cases c with
  | node a => exact d.nodes_addNode a
  | edge a b =>
    simp only [applyPlain, mentions, List.foldl_cons, List.foldl_nil,
      DependencyGraph.nodes_addEdge, DependencyGraph.nodes_addNode]

/-- A call adds its pair, if it has one. -/
theorem edges_applyPlain (d : DependencyGraph α) (c : Call α) :
    (applyPlain d c).edges = c.pair?.toList.foldl appendNew d.edges := by
  cases c with
  | node a => exact d.edges_addNode a
  | edge a b => exact d.edges_addEdge a b

end Call

/-- The graph after some calls. -/
def run (g : InternedGraph α) (calls : List (Call α)) : InternedGraph α :=
  calls.foldl Call.apply g

/-- The plain graph after some calls. -/
def runPlain (d : DependencyGraph α) (calls : List (Call α)) : DependencyGraph α :=
  calls.foldl Call.applyPlain d

variable {d : DependencyGraph α} {a : α}

/-- Calls on the layout are the calls on the plain graph. -/
theorem run_interned (d : DependencyGraph α) (calls : List (Call α)) :
    run d.interned calls = (runPlain d calls).interned :=
  List.foldl_hom DependencyGraph.interned Call.apply_interned

/-- Calls add the nodes that they mention, in their order. -/
theorem nodes_runPlain (d : DependencyGraph α) (calls : List (Call α)) :
    (runPlain d calls).nodes = (calls.flatMap Call.mentions).foldl appendNew d.nodes := by
  rw [List.foldl_flatMap]
  exact (List.foldl_hom DependencyGraph.nodes fun d c => (Call.nodes_applyPlain d c).symm).symm

/-- Calls add their pairs, in their order. -/
theorem edges_runPlain (d : DependencyGraph α) (calls : List (Call α)) :
    (runPlain d calls).edges = (calls.filterMap Call.pair?).foldl appendNew d.edges := by
  rw [List.filterMap_eq_flatMap_toList, List.foldl_flatMap]
  exact (List.foldl_hom DependencyGraph.edges fun d c => (Call.edges_applyPlain d c).symm).symm

/-- A node keeps its position, whatever is called later. -/
theorem indexOf_runPlain (ha : a ∈ d.nodes) (calls : List (Call α)) :
    a ∈ (runPlain d calls).nodes ∧ (runPlain d calls).indexOf a = d.indexOf a := by
  rw [DependencyGraph.indexOf, nodes_runPlain, foldl_appendNew]
  exact ⟨List.mem_append_left _ ha, List.idxOf_append_of_mem ha⟩

/-- The answer to mentioning a node is its position, then and after any other calls. -/
theorem addNode_run (d : DependencyGraph α) (a : α) (later : List (Call α)) :
    let i := (d.interned.addNode a).1
    let after := run (d.interned.addNode a).2 later
    after.nodes[i]? = some a ∧ (after.addNode a).1 = i := by
  have ha : a ∈ (d.addNode a).nodes := DependencyGraph.mem_addNode.mpr (.inr rfl)
  obtain ⟨hmem, hposition⟩ := indexOf_runPlain ha later
  simp only [DependencyGraph.addNode_interned, run_interned, DependencyGraph.addNode_of_mem hmem,
    hposition, and_true]
  rw [← hposition]
  exact DependencyGraph.getElem?_indexOf hmem

/-- Without repeated pairs, no target of a node is repeated. -/
theorem successors_eq_eraseDups {pairs : List (α × α)} (h : d.edges = pairs.eraseDups) (a : α) :
    d.successors a = ((pairs.filter fun e => e.1 = a).map Prod.snd).eraseDups := by
  rw [DependencyGraph.successors, h, ← eraseDups_filter]
  refine (eraseDups_map ?_).symm
  -- The pairs that start at `a` are told apart by their targets.
  intro e he f hf htarget
  have he : e.1 = a := by simpa using (List.mem_filter.mp he).2
  have hf : f.1 = a := by simpa using (List.mem_filter.mp hf).2
  exact Prod.ext (he.trans hf.symm) htarget

/-- What a graph shows, told by the plain list of the calls that built it. -/
structure Shows (calls : List (Call α)) (g : InternedGraph α) : Prop where
  /-- The nodes are those mentioned, each once, in the order of first mention. -/
  nodes_eq : g.nodes = (calls.flatMap Call.mentions).eraseDups ∧ g.nodes.Nodup
  /-- Mentioning a node is answered with its position among the nodes. The node keeps that position,
      and the answer stays the same, whatever is called later. -/
  position : ∀ a later,
    let i := (g.addNode a).1
    let after := run (g.addNode a).2 later
    after.nodes[i]? = some a ∧ (after.addNode a).1 = i
  /-- An edge is new if no call has added its pair. -/
  isNew : ∀ a b, (g.addEdge a b).1 = true ↔ (a, b) ∉ calls.filterMap Call.pair?
  edgeCount_eq : g.edgeCount = (calls.filterMap Call.pair?).eraseDups.length
  /-- The successors of a node are the targets added for it, each once, in the order of first
      insertion. -/
  successors_eq : ∀ a, g.successors a =
    (((calls.filterMap Call.pair?).filter fun e => e.1 = a).map Prod.snd).eraseDups
  successors_unknown : ∀ a, a ∉ calls.flatMap Call.mentions → g.successors a = []
  edges_lt : ∀ e ∈ g.edges, e.1 < g.nodeCount ∧ e.2 < g.nodeCount
  /-- Ordering finds every position in its tables, and gives the order of the plain graph. -/
  order : ∃ d : DependencyGraph α, d.nodes = (calls.flatMap Call.mentions).eraseDups ∧
    d.edges = (calls.filterMap Call.pair?).eraseDups ∧
    g.topologicalOrder? = some d.topologicalOrder

/-- After any calls, an interned graph shows what the plain list of the calls tells. -/
theorem shows_run (calls : List (Call α)) : Shows calls (run empty calls) := by
  have hrun : run empty calls = (runPlain .empty calls).interned := run_interned .empty calls
  have hnodes : (runPlain .empty calls).nodes = (calls.flatMap Call.mentions).eraseDups := by
    rw [nodes_runPlain]
    exact foldl_appendNew_nil _
  have hedges : (runPlain .empty calls).edges = (calls.filterMap Call.pair?).eraseDups := by
    rw [edges_runPlain]
    exact foldl_appendNew_nil _
  rw [hrun]
  -- All that is shown depends on the nodes and the edges of the plain graph.
  generalize runPlain .empty calls = d at hnodes hedges
  refine ⟨⟨hnodes, d.nodup_nodes⟩, addNode_run d, ?_, ?_, ?_, ?_, ?_, d, hnodes, hedges,
    d.topologicalOrder?_interned⟩
  · intro a b
    simp [d.addEdge_interned, DependencyGraph.hasEdge, hedges]
  · simp [edgeCount, DependencyGraph.interned, hedges]
  · intro a
    rw [d.successors_interned]
    exact successors_eq_eraseDups hedges a
  · intro a ha
    rw [d.successors_interned]
    refine DependencyGraph.successors_of_notMem ?_
    simpa [hnodes] using ha
  · intro e he
    obtain ⟨f, hf, hfe⟩ := List.mem_map.mp he
    obtain ⟨hfst, hsnd⟩ := d.mem_nodes f hf
    subst hfe
    exact ⟨DependencyGraph.indexOf_lt hfst, DependencyGraph.indexOf_lt hsnd⟩

-- A loop, a repeated edge, and a node that is mentioned before it has an edge.
example :
    let g := run empty [.edge 7 5, .node 9, .edge 5 5, .edge 7 5, .edge 7 9]
    g.nodes = [7, 5, 9] ∧ g.edges = [(0, 1), (1, 1), (0, 2)] ∧ (g.addNode 9).1 = 2 ∧
      (g.addEdge 7 5).1 = false ∧ g.successors 7 = [5, 9] ∧ g.successors 5 = [5] ∧
      g.topologicalOrder?.map TopologicalOrder.sequence = some [7, 9, 5] := by
  decide

end InternedGraph
end HotRename
