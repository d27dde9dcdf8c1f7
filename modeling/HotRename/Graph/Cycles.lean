import HotRename.Graph.Reach

/-!
# Cycles on the path of a depth-first walk

The walk keeps the nodes on its current path, each with those of its successors that are still to
be looked at. A successor that lies on the path closes a cycle, which is reported as the path from
that node on, followed by the node once more. A successor met earlier and no longer on the path
leads to nothing new. The walk ends whenever finitely many nodes can be reached.
-/

namespace HotRename

variable {α : Type u}

/-- The state of a walk. -/
structure CycleSearch (α : Type u) where
  /-- The nodes entered so far, the latest first; the successors of each were asked for once. -/
  entered : List α := []
  /-- The current path, its end first, with the successors still to be looked at. -/
  path : List (α × List α) := []
  /-- The cycles found so far. -/
  cycles : List (List α) := []

namespace CycleSearch

/-- The nodes on the current path, its end first. -/
def onPath (s : CycleSearch α) : List α :=
  s.path.map Prod.fst

/-- Every successor still to be looked at satisfies `P`. -/
def Pending (P : α → Prop) (path : List (α × List α)) : Prop :=
  ∀ frame ∈ path, ∀ b ∈ frame.2, P b

/-- The work left on a path: its nodes and the successors still to be looked at. -/
def work : List (α × List α) → Nat
  | [] => 0
  | frame :: path => frame.2.length + 1 + work path

variable [DecidableEq α]

/-- The cycle that a node on the path closes, given the nodes on the path, its end first. -/
def closing (b : α) (onPath : List α) : List α :=
  -- The end of the path comes first, so what lies behind `b` stands before it in the list.
  b :: (onPath.takeWhile (· ≠ b)).reverse ++ [b]

/-- Enters a node at the end of the path. -/
def enter (next : α → List α) (a : α) (s : CycleSearch α) : CycleSearch α :=
  { s with entered := a :: s.entered, path := (a, next a) :: s.path }

/-- Walks on until the path is empty. -/
def explore (next : α → List α) {roots : List α} (finite : FiniteReach next roots)
    (s : CycleSearch α) (pending : Pending (Reach next roots) s.path) : CycleSearch α :=
  match hpath : s.path with
  | [] => s
  | (_, []) :: below =>
    explore next finite { s with path := below }
      (fun frame hf => pending frame (hpath ▸ List.mem_cons_of_mem _ hf))
  | (a, b :: later) :: below =>
    have hb : Reach next roots b := pending (a, b :: later) (hpath ▸ List.mem_cons_self) b
      List.mem_cons_self
    have hrest : Pending (Reach next roots) ((a, later) :: below) := by
      intro frame hf c hc
      rcases List.mem_cons.mp hf with rfl | hf
      · exact pending (a, b :: later) (hpath ▸ List.mem_cons_self) c (List.mem_cons_of_mem _ hc)
      · exact pending frame (hpath ▸ List.mem_cons_of_mem _ hf) c hc
    -- A node on the path was entered as well, so it has to be recognised first.
    if s.onPath.contains b then
      explore next finite
        { s with path := (a, later) :: below, cycles := s.cycles ++ [closing b s.onPath] } hrest
    else if hseen : b ∈ s.entered then
      explore next finite { s with path := (a, later) :: below } hrest
    else
      explore next finite (enter next b { s with path := (a, later) :: below }) (by
        intro frame hf c hc
        rcases List.mem_cons.mp hf with rfl | hf
        · exact .step hb hc
        · exact hrest frame hf c hc)
termination_by (unseen finite.bound s.entered, work s.path)
decreasing_by
  -- Only the last case makes the path longer, and there one more node counts as entered.
  · exact Prod.Lex.right _ (by simp only [hpath, work]; omega)
  · exact Prod.Lex.right _ (by simp only [hpath, work, List.length_cons]; omega)
  · exact Prod.Lex.right _ (by simp only [hpath, work, List.length_cons]; omega)
  · exact Prod.Lex.left _ _ (unseen_cons_lt (finite.mem_bound hb) hseen)

/-- Walks from each of the given roots that was not entered before. -/
def exploreAll (next : α → List α) {roots : List α} (finite : FiniteReach next roots) :
    (todo : List α) → (∀ r ∈ todo, Reach next roots r) → CycleSearch α → CycleSearch α
  | [], _, s => s
  | r :: todo, reach, s =>
    let rest := fun a ha => reach a (List.mem_cons_of_mem _ ha)
    if r ∈ s.entered then exploreAll next finite todo rest s
    else
      exploreAll next finite todo rest
        -- Each root has a path of its own, but what was entered before is not walked again.
        (explore next finite (enter next r { s with path := [] }) (by
          intro frame hf c hc
          rcases List.mem_cons.mp hf with rfl | hf
          · exact .step (reach r List.mem_cons_self) hc
          · cases hf))

end CycleSearch

variable [DecidableEq α]

/-- The finished walk from the given roots. -/
def cycleSearch (next : α → List α) (roots : List α) (finite : FiniteReach next roots) :
    CycleSearch α :=
  CycleSearch.exploreAll next finite roots (fun _ h => .root h) {}

/-- The cycles found by walking from the given roots, in the order in which they are found. -/
def detectCycles (next : α → List α) (roots : List α) (finite : FiniteReach next roots) :
    List (List α) :=
  (cycleSearch next roots finite).cycles

/-! ## Graphs given by a table -/

/-- The successors that a table lists for a node; of several lists the last counts. -/
def tableSuccessors (table : List (α × List α)) (a : α) : List α :=
  ((table.reverse.find? fun row => row.1 = a).map Prod.snd).getD []

/-- A table names finitely many successors. -/
theorem tableSuccessors_mem {table : List (α × List α)} {a b : α}
    (h : b ∈ tableSuccessors table a) : b ∈ table.flatMap Prod.snd := by
  unfold tableSuccessors at h
  cases hf : table.reverse.find? fun row => row.1 = a with
  | none => simp [hf] at h
  | some row =>
    have hm := List.mem_reverse.mp (List.mem_of_find?_eq_some hf)
    exact List.mem_flatMap.mpr ⟨row, hm, by simpa [hf] using h⟩

/-- The cycles of a graph given by a table. -/
def tableCycles (table : List (α × List α)) (roots : List α) : List (List α) :=
  detectCycles (tableSuccessors table) roots
    (.of_forall_mem roots (table.flatMap Prod.snd) fun _ _ h => tableSuccessors_mem h)

end HotRename
