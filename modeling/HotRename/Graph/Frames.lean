import HotRename.Graph.Cycles

/-!
# The search for cycles with its tables laid out

The search keeps what it needs in tables of its own: the set of nodes that it has visited, the set
of those that it is visiting, the path to the last of them, and a stack of frames, one for each node
on the path, with the successors still to be looked at. The nodes whose successors were asked for
are listed. A turn of the search looks at one more successor or leaves a node. With each turn fewer
nodes are left to be visited, or fewer successors to be looked at, so the turns end whenever
finitely many nodes can be reached.
-/

namespace HotRename

variable {α : Type u}

/-- The state of a search with its frames. -/
structure FrameSearch (α : Type u) where
  /-- The nodes entered so far, as a set. -/
  visited : List α := []
  /-- The nodes that were entered and not left, as a set. -/
  visiting : List α := []
  /-- The current path, its start first. -/
  path : List α := []
  /-- The cycles found so far. -/
  cycles : List (List α) := []
  /-- The nodes on the path, the last first, each with the successors still to be looked at. -/
  frames : List (α × List α) := []
  /-- The nodes whose successors were asked for, in the order of the questions. -/
  asked : List α := []

namespace FrameSearch

variable [DecidableEq α]

/-- Goes on to a node. -/
def enter (a : α) (s : FrameSearch α) : FrameSearch α :=
  { s with
    visited := s.visited.insert a
    visiting := s.visiting.insert a
    path := s.path ++ [a] }

/-- Asks for the successors of a node, which get a frame. -/
def ask (next : α → List α) (a : α) (s : FrameSearch α) : FrameSearch α :=
  { s with frames := (a, next a) :: s.frames, asked := s.asked ++ [a] }

/-- Leaves the node at the end of the path. -/
def leave (a : α) (s : FrameSearch α) : FrameSearch α :=
  { s with visiting := s.visiting.erase a, path := s.path.dropLast }

/-- Reports the path from the given node on, followed by the node once more. -/
def record (b : α) (s : FrameSearch α) : FrameSearch α :=
  match s.path.idxOf? b with
  | none => s
  | some i => { s with cycles := s.cycles ++ [s.path.drop i ++ [b]] }

/-- One turn of the search. There is none if the stack is empty. -/
def turn? (next : α → List α) (s : FrameSearch α) : Option (FrameSearch α) :=
  match s.frames with
  | [] => none
  | (a, []) :: below => some (leave a { s with frames := below })
  | (a, b :: later) :: below =>
    let looked := { s with frames := (a, later) :: below }
    if b ∈ s.visiting then some (looked.record b)
    else if b ∈ s.visited then some looked
    else some ((looked.enter b).ask next b)

/-! ## The turns end -/

/-- What a turn does to the stack and to the nodes visited. -/
theorem turn?_cases {next : α → List α} {s s' : FrameSearch α} (h : s.turn? next = some s') :
    (∃ a, s.frames = (a, []) :: s'.frames ∧ s'.visited = s.visited ∧ s'.asked = s.asked) ∨
    (∃ a b later below, s.frames = (a, b :: later) :: below ∧
      s'.frames = (a, later) :: below ∧ s'.visited = s.visited ∧ s'.asked = s.asked) ∨
    ∃ a b later below, s.frames = (a, b :: later) :: below ∧ b ∉ s.visited ∧
      s'.frames = (b, next b) :: (a, later) :: below ∧ s'.visited = b :: s.visited ∧
      s'.asked = s.asked ++ [b] := by
  unfold turn? at h
  split at h
  · cases h
  -- The node on top has no successor left, so it is left.
  · rename_i a below hframes
    cases h
    exact .inl ⟨a, hframes, rfl, rfl⟩
  · rename_i a b later below hframes
    refine .inr ?_
    dsimp only at h
    split at h
    · cases h
      -- A cycle was closed; reporting it touches neither the stack nor the nodes visited.
      refine .inl ⟨a, b, later, below, hframes, ?_⟩
      unfold record
      split <;> exact ⟨rfl, rfl, rfl⟩
    · split at h
      · cases h
        exact .inl ⟨a, b, later, below, hframes, rfl, rfl, rfl⟩
      · rename_i hnew
        cases h
        exact .inr ⟨a, b, later, below, hframes, hnew, rfl, List.insert_of_not_mem hnew, rfl⟩

open CycleSearch (Pending work)

/-- A turn puts successors of reached nodes on the stack, and nothing else. -/
theorem pending_turn {next : α → List α} {roots : List α} {s s' : FrameSearch α}
    (pending : Pending (Reach next roots) s.frames) (h : s.turn? next = some s') :
    Pending (Reach next roots) s'.frames := by
  -- Of a frame with a successor left, that successor can be reached, and so can the others.
  have hlater : ∀ {a b later below}, s.frames = (a, b :: later) :: below →
      Reach next roots b ∧ Pending (Reach next roots) ((a, later) :: below) := by
    intro a b later below hframes
    rw [hframes] at pending
    refine ⟨pending _ List.mem_cons_self b List.mem_cons_self, fun frame hf c hc => ?_⟩
    rcases List.mem_cons.mp hf with rfl | hf
    · exact pending _ List.mem_cons_self c (List.mem_cons_of_mem _ hc)
    · exact pending frame (List.mem_cons_of_mem _ hf) c hc
  rcases turn?_cases h with ⟨a, hframes, -⟩ | ⟨a, b, later, below, hframes, hframes', -⟩ |
    ⟨a, b, later, below, hframes, -, hframes', -⟩
  · exact fun frame hf => pending frame (hframes ▸ List.mem_cons_of_mem _ hf)
  · rw [hframes']
    exact (hlater hframes).2
  · obtain ⟨hb, hrest⟩ := hlater hframes
    rw [hframes']
    intro frame hf c hc
    rcases List.mem_cons.mp hf with rfl | hf
    · exact .step hb hc
    · exact hrest frame hf c hc

/-- A turn leaves fewer nodes to be visited, or as many and fewer successors to be looked at. -/
theorem turn?_decreases {next : α → List α} {roots : List α} (finite : FiniteReach next roots)
    {s s' : FrameSearch α} (pending : Pending (Reach next roots) s.frames)
    (h : s.turn? next = some s') :
    Prod.Lex (· < ·) (· < ·) (unseen finite.bound s'.visited, work s'.frames)
      (unseen finite.bound s.visited, work s.frames) := by
  rcases turn?_cases h with ⟨a, hframes, hvisited, -⟩ |
    ⟨a, b, later, below, hframes, hframes', hvisited, -⟩ |
    ⟨a, b, later, below, hframes, hnew, -, hvisited, -⟩
  · rw [hvisited]
    exact Prod.Lex.right _ (by simp only [hframes, work]; omega)
  · rw [hvisited]
    exact Prod.Lex.right _ (by simp only [hframes, hframes', work, List.length_cons]; omega)
  -- Only entering a node lengthens the stack, and it makes the first component smaller.
  · have hb : Reach next roots b :=
      pending (a, b :: later) (hframes ▸ List.mem_cons_self) b List.mem_cons_self
    rw [hvisited]
    exact Prod.Lex.left _ _ (unseen_cons_lt (finite.mem_bound hb) hnew)

/-! ## The search -/

/-- Takes turns until the stack is empty. -/
def run (next : α → List α) {roots : List α} (finite : FiniteReach next roots)
    (s : FrameSearch α) (pending : Pending (Reach next roots) s.frames) : FrameSearch α :=
  match hturn : s.turn? next with
  | none => s
  | some s' => run next finite s' (pending_turn pending hturn)
termination_by (unseen finite.bound s.visited, work s.frames)
decreasing_by exact turn?_decreases finite pending hturn

/-- Enters a root, with a stack of its own. -/
def start (next : α → List α) (root : α) (s : FrameSearch α) : FrameSearch α :=
  ask next root (enter root { s with frames := [] })

/-- The stack of a root holds successors of the root only. -/
theorem pending_start {next : α → List α} {roots todo : List α} {root : α}
    (reach : ∀ r ∈ root :: todo, Reach next roots r) (s : FrameSearch α) :
    Pending (Reach next roots) (start next root s).frames := by
  intro frame hf c hc
  rcases List.mem_cons.mp hf with rfl | hf
  · exact .step (reach root List.mem_cons_self) hc
  · cases hf

omit [DecidableEq α] in
/-- The roots that are still to be searched from can be reached, being roots. -/
theorem reach_later {next : α → List α} {roots todo : List α} {root : α}
    (reach : ∀ r ∈ root :: todo, Reach next roots r) : ∀ r ∈ todo, Reach next roots r :=
  fun r hr => reach r (List.mem_cons_of_mem root hr)

/-- Searches from each of the given roots that was not visited before. -/
def visitAll (next : α → List α) {roots : List α} (finite : FiniteReach next roots) :
    (todo : List α) → (∀ r ∈ todo, Reach next roots r) → FrameSearch α → FrameSearch α
  | [], _, s => s
  | r :: todo, reach, s =>
    visitAll next finite todo (reach_later reach) <|
      if r ∈ s.visited then s else run next finite (start next r s) (pending_start reach s)

end FrameSearch

variable [DecidableEq α]

/-- The finished search from the given roots. -/
def frameSearch (next : α → List α) (roots : List α) (finite : FiniteReach next roots) :
    FrameSearch α :=
  FrameSearch.visitAll next finite roots (fun _ h => .root h) {}

end HotRename
