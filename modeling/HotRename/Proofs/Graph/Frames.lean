import HotRename.Graph.Frames
import HotRename.Proofs.Graph.CyclesFound

/-!
# The search with frames ends, and asks once

The search that keeps its path, the set of nodes on it and its frames apart takes the steps of the
plain search, whose state says what each of them holds: the frames are the path with the successors
still to be looked at, and the other two are its nodes. So it asks for the successors of the nodes
that can be reached, and when it comes to another root nothing is left of the last one. Each turn
takes one piece of work off the stack, and asking for successors puts them there: the number of
turns is that of the nodes asked for and of their successors. Main statements:

* `drop_idxOf?_reverse`     the cycle that is read off the path from its start
* `turn?_laidOut`           a turn is a step of the plain search
* `visitAll_laidOut`        the search does what the plain one does
* `turn?_cost`              a turn takes one piece of work off the stack
* `frameSearch_asks_once`   the finished search
-/

namespace HotRename

variable {α : Type u} {next : α → List α} {roots : List α} {a b : α}

namespace FrameSearch

open CycleSearch (Pending work)

variable [DecidableEq α] {s s' t : FrameSearch α}

/-- A search that has no turn to take is finished. -/
theorem run_of_none (finite : FiniteReach next roots)
    (pending : Pending (Reach next roots) s.frames) (h : s.turn? next = none) :
    run next finite s pending = s := by
  rw [run]
  split
  · rfl
  · rename_i hsome
    cases hsome.symm.trans h

/-- A search goes on from where a turn leads. -/
theorem run_of_turn (finite : FiniteReach next roots)
    (pending : Pending (Reach next roots) s.frames) (h : s.turn? next = some s') :
    run next finite s pending = run next finite s' (pending_turn pending h) := by
  rw [run]
  split
  · rename_i hnone
    cases hnone.symm.trans h
  · rename_i hsome
    cases hsome.symm.trans h
    rfl

end FrameSearch

namespace CycleSearch

/-- The tables that hold a state of the plain search. -/
def laidOut (s : CycleSearch α) : FrameSearch α where
  visited := s.entered
  visiting := s.onPath
  path := s.onPath.reverse
  cycles := s.cycles
  frames := s.path
  asked := s.entered.reverse

variable [DecidableEq α] {s s' : CycleSearch α}

/-! ## Steps of the plain search -/

/-- From a node on it, the path goes on as the cycle that the node closes. -/
theorem drop_idxOf?_reverse {onPath : List α} (hnodup : onPath.Nodup) (hb : b ∈ onPath) :
    ∃ i, onPath.reverse.idxOf? b = some i ∧
      onPath.reverse.drop i ++ [b] = closing b onPath := by
  obtain ⟨inner, outer, rfl⟩ := List.append_of_mem hb
  have hsplit : (inner ++ b :: outer).reverse = outer.reverse ++ b :: inner.reverse := by simp
  -- The node lies on the path once, so the parts around it do not have it.
  have hinner : b ∉ inner := by
    intro h
    exact (List.nodup_append.mp hnodup).2.2 b h b List.mem_cons_self rfl
  have houter : b ∉ outer.reverse := by
    rw [List.mem_reverse]
    exact (List.nodup_cons.mp (List.nodup_append.mp hnodup).2.1).1
  refine ⟨outer.length, ?_, ?_⟩
  · have hfirst : outer.reverse.findIdx? (· == b) = none := by
      refine List.findIdx?_eq_none_iff.mpr fun x hx => beq_eq_false_iff_ne.mpr ?_
      rintro rfl
      exact houter hx
    rw [hsplit, List.idxOf?, List.findIdx?_append, hfirst]
    simp [List.findIdx?_cons]
  · have htake : (inner ++ b :: outer).takeWhile (· ≠ b) = inner := by
      rw [List.takeWhile_append_of_pos]
      · simp
      · intro x hx
        exact decide_eq_true fun h => hinner (h ▸ hx)
    rw [hsplit, closing, htake, List.drop_left' (List.length_reverse)]

/-- A turn of the laid out search is a step of the plain one. -/
theorem turn?_laidOut (hsound : Sound next roots s) (hstep : Step next roots s s')
    (hpath : s.path ≠ []) : s.laidOut.turn? next = some s'.laidOut := by
  obtain ⟨entered, path, cycles⟩ := s
  cases hstep with
  | root hempty => exact absurd hempty hpath
  | leave hframe =>
    subst hframe
    simp [FrameSearch.turn?, laidOut, FrameSearch.leave, onPath]
  | @close a b later below hframe hb =>
    subst hframe
    -- The cycle is cut out of the path from its start, and is the one that the plain search
    -- reports.
    obtain ⟨i, hi, hcycle⟩ := drop_idxOf?_reverse hsound.nodup_onPath hb
    simp only [FrameSearch.turn?, laidOut, FrameSearch.record, if_pos hb, hi, hcycle]
    rfl
  | @pass a b later below hframe hb hold =>
    subst hframe
    dsimp only at hold
    simp only [FrameSearch.turn?, laidOut, hb, hold, if_false, if_true]
    rfl
  | @enter a b later below hframe hnew =>
    subst hframe
    -- A new node is not on the path, so the sets grow by it.
    have hoff : b ∉ onPath { entered, path := (a, b :: later) :: below, cycles } :=
      fun hb => hnew (hsound.onPath_entered b hb)
    simp only [FrameSearch.turn?, laidOut, if_neg hoff, if_neg hnew, FrameSearch.enter,
      FrameSearch.ask, List.insert_of_not_mem hoff, List.insert_of_not_mem hnew]
    simp [CycleSearch.enter, onPath]

/-- The turns from a state end where they end after one step of the plain search. -/
theorem run_laidOut_of_step (finite : FiniteReach next roots)
    {pending : Pending (Reach next roots) s.path} {pending' : Pending (Reach next roots) s'.path}
    {final : FrameSearch α} (hsound : Sound next roots s) (hpath : s.path ≠ [])
    (hstep : Step next roots s s')
    (h : Sound next roots s' → FrameSearch.run next finite s'.laidOut pending' = final) :
    FrameSearch.run next finite s.laidOut pending = final :=
  (FrameSearch.run_of_turn finite pending (turn?_laidOut hsound hstep hpath)).trans
    (h (hsound.step hstep))

/-- The turns from a state end where the plain search does. -/
theorem run_laidOut (finite : FiniteReach next roots) (s : CycleSearch α)
    (pending : Pending (Reach next roots) s.path) (hsound : Sound next roots s) :
    FrameSearch.run next finite s.laidOut pending = (explore next finite s pending).laidOut := by
  -- The induction goes with the plain search, whose cases are the kinds of turns.
  fun_induction explore next finite s pending with
  | case1 s pending hpath =>
    refine FrameSearch.run_of_none finite pending ?_
    simp [FrameSearch.turn?, laidOut, hpath]
  | case2 s pending a below hpath ih =>
    exact run_laidOut_of_step finite hsound (by simp [hpath]) (.leave hpath) ih
  | case3 s pending a b later below hpath hb hrest hon ih =>
    have hon := List.contains_iff_mem.mp hon
    exact run_laidOut_of_step finite hsound (by simp [hpath]) (.close hpath hon) ih
  | case4 s pending a b later below hpath hb hrest hon hold ih =>
    have hoff := mt List.contains_iff_mem.mpr hon
    exact run_laidOut_of_step finite hsound (by simp [hpath]) (.pass hpath hoff hold) ih
  | case5 s pending a b later below hpath hb hrest hon hnew ih =>
    exact run_laidOut_of_step finite hsound (by simp [hpath]) (.enter hpath hnew) ih

/-- Entering a root with a stack of its own. -/
theorem start_laidOut (hpath : s.path = []) (hnew : a ∉ s.entered) :
    FrameSearch.start next a s.laidOut = (enter next a { s with path := [] }).laidOut := by
  simp [FrameSearch.start, FrameSearch.ask, FrameSearch.enter, laidOut, onPath, hpath,
    CycleSearch.enter, hnew]

/-- Searching from the roots one after the other does what the plain search does. -/
theorem visitAll_laidOut (finite : FiniteReach next roots) {todo : List α}
    (htodo : ∀ r ∈ todo, r ∈ roots) (reach : ∀ r ∈ todo, Reach next roots r)
    (hpath : s.path = []) (hsound : Sound next roots s) :
    FrameSearch.visitAll next finite todo reach s.laidOut =
      (exploreAll next finite todo reach s).laidOut := by
  induction todo generalizing s with
  | nil => rfl
  | cons r todo ih =>
    obtain ⟨hr, htodo⟩ := List.forall_mem_cons.mp htodo
    unfold FrameSearch.visitAll exploreAll
    by_cases hold : r ∈ s.entered
    · rw [if_pos hold, if_pos (show r ∈ s.laidOut.visited from hold)]
      exact ih htodo _ hpath hsound
    · rw [if_neg hold, if_neg (show r ∉ s.laidOut.visited from hold)]
      -- Entering a root is a step of the plain search.
      have hstep : Step next roots s (enter next r { s with path := [] }) := by
        rw [← hpath]
        exact .root hpath hr hold
      have hentered := hsound.step hstep
      have hexplore := explore_steps finite (enter next r { s with path := [] })
      -- The two runs differ in the proofs that they carry, so this is said for all of them.
      have hrun : ∀ p q, FrameSearch.run next finite (FrameSearch.start next r s.laidOut) p =
          (explore next finite (enter next r { s with path := [] }) q).laidOut := by
        rw [start_laidOut hpath hold]
        exact fun _ q => run_laidOut finite _ q hentered
      rw [hrun]
      exact ih htodo _ (hexplore _).2 ((hexplore _).1.keeps hentered fun _ _ => Sound.step)

end CycleSearch

namespace FrameSearch

open CycleSearch (Pending work)

variable [DecidableEq α] {s s' t : FrameSearch α}

/-! ## The number of turns -/

/-- So many turns lead from a state to one with an empty stack. -/
inductive Turns (next : α → List α) : Nat → FrameSearch α → FrameSearch α → Prop where
  | ended {s : FrameSearch α} (h : s.turn? next = none) : Turns next 0 s s
  | turn {n : Nat} {s s' t : FrameSearch α} (h : s.turn? next = some s')
      (rest : Turns next n s' t) : Turns next (n + 1) s t

/-- Searching from the roots one after the other leads from one state to another, with so many turns
    in all. -/
inductive Visits (next : α → List α) : Nat → FrameSearch α → List α → FrameSearch α → Prop where
  | nil {s : FrameSearch α} : Visits next 0 s [] s
  /-- The root was visited before. -/
  | known {n : Nat} {s t : FrameSearch α} {r : α} {roots : List α} (h : r ∈ s.visited)
      (rest : Visits next n s roots t) : Visits next n s (r :: roots) t
  /-- The root is entered, and the turns from there come to an end. -/
  | new {m n : Nat} {s s' t : FrameSearch α} {r : α} {roots : List α} (h : r ∉ s.visited)
      (turns : Turns next m (start next r s) s') (rest : Visits next n s' roots t) :
      Visits next (m + n) s (r :: roots) t

/-- Nothing is left of the search from a root: no path, nobody being visited, and no frame. -/
structure Idle (s : FrameSearch α) : Prop where
  path : s.path = []
  visiting : s.visiting = []
  frames : s.frames = []

omit [DecidableEq α] in
/-- Where the plain search has an empty path, nothing is left. -/
theorem idle_laidOut {s : CycleSearch α} (h : s.path = []) : s.laidOut.Idle := by
  have hnone : s.onPath = [] := by rw [CycleSearch.onPath, h, List.map_nil]
  exact ⟨by simp [CycleSearch.laidOut, hnone], hnone, h⟩

/-- Number of the given nodes and of their successors. -/
def size (next : α → List α) : List α → Nat
  | [] => 0
  | a :: as => (next a).length + 1 + size next as

omit [DecidableEq α] in
/-- What asking for one more node adds. -/
@[simp] theorem size_concat (next : α → List α) (as : List α) (a : α) :
    size next (as ++ [a]) = size next as + ((next a).length + 1) := by
  induction as with
  | nil => simp [size]
  | cons b as ih =>
    rw [List.cons_append, size, size, ih]
    omega

/-- A turn takes one piece of work off the stack; what comes on it was asked for. -/
theorem turn?_cost (h : s.turn? next = some s') :
    size next s'.asked + work s.frames = size next s.asked + work s'.frames + 1 := by
  rcases turn?_cases h with ⟨a, hframes, -, hasked⟩ |
    ⟨a, b, later, below, hframes, hframes', -, hasked⟩ |
    ⟨a, b, later, below, hframes, -, hframes', -, hasked⟩
  · simp only [hframes, hasked, work, List.length_nil]
    omega
  · simp only [hframes, hframes', hasked, work, List.length_cons]
    omega
  · simp only [hframes, hframes', hasked, work, List.length_cons, size_concat]
    omega

/-- Only an empty stack leaves no turn to take. -/
theorem frames_of_turn?_eq_none (h : s.turn? next = none) : s.frames = [] := by
  unfold turn? at h
  split at h
  · assumption
  · cases h
  · dsimp only at h
    split at h
    · cases h
    · split at h <;> cases h

/-- The turns work off what was on the stack and what was asked for on the way. -/
theorem Turns.cost {n : Nat} (h : Turns next n s t) :
    size next t.asked + work s.frames = size next s.asked + n := by
  induction h with
  | ended h => simp [frames_of_turn?_eq_none h, work]
  | turn h _ ih =>
    have hcost := turn?_cost h
    omega

/-- The turns of all roots together work off what was asked for. -/
theorem Visits.cost {n : Nat} {todo : List α} (h : Visits next n s todo t) :
    size next t.asked = size next s.asked + n := by
  induction h with
  | nil => rfl
  | known _ _ ih => exact ih
  | @new m n s s' t r _ _ turns _ ih =>
    have hcost := turns.cost
    have hstart : size next (start next r s).asked = size next s.asked + ((next r).length + 1) :=
      size_concat next s.asked r
    have hwork : work (start next r s).frames = (next r).length + 1 := rfl
    omega

/-! ## The whole search -/

/-- The turns from a state come to an end. -/
theorem turns_run (finite : FiniteReach next roots) (s : FrameSearch α)
    (pending : Pending (Reach next roots) s.frames) :
    ∃ n, Turns next n s (run next finite s pending) := by
  fun_induction run next finite s pending with
  | case1 s pending h => exact ⟨0, .ended h⟩
  | case2 s pending s' h ih =>
    obtain ⟨n, hn⟩ := ih
    exact ⟨n + 1, .turn h hn⟩

/-- So does the search from all roots. -/
theorem visits_visitAll (finite : FiniteReach next roots) {todo : List α}
    (reach : ∀ r ∈ todo, Reach next roots r) (s : FrameSearch α) :
    ∃ n, Visits next n s todo (visitAll next finite todo reach s) := by
  induction todo generalizing s with
  | nil => exact ⟨0, .nil⟩
  | cons r todo ih =>
    unfold visitAll
    split
    · rename_i hold
      obtain ⟨n, hn⟩ := ih (reach_later reach) s
      exact ⟨n, .known hold hn⟩
    · rename_i hnew
      obtain ⟨m, hm⟩ := turns_run finite (start next r s) _
      obtain ⟨n, hn⟩ := ih (reach_later reach) _
      -- The turns of one root are added to those of the roots after it.
      exact ⟨m + n, .new hnew hm hn⟩

/-- The search from the roots of two lists is one search after the other. -/
theorem visitAll_append (finite : FiniteReach next roots) {front back : List α}
    (reach : ∀ r ∈ front ++ back, Reach next roots r) (s : FrameSearch α) :
    visitAll next finite (front ++ back) reach s =
      visitAll next finite back (fun r hr => reach r (List.mem_append_right _ hr))
        (visitAll next finite front (fun r hr => reach r (List.mem_append_left _ hr)) s) := by
  induction front generalizing s with
  | nil => rfl
  | cons r front ih =>
    show visitAll next finite (r :: (front ++ back)) reach s = _
    rw [visitAll, visitAll]
    exact ih _ _

end FrameSearch

open FrameSearch CycleSearch

variable [DecidableEq α]

/-- The search with frames comes to an end, and finds what the plain search finds. It asks for the
    successors of the nodes that can be reached from the roots, each once, and takes one turn for
    each of these nodes and each of their successors. Wherever the roots are cut in two, the search
    from the first ones leaves nothing of its path, its visits and its frames to the search from the
    others. -/
theorem frameSearch_asks_once (finite : FiniteReach next roots) :
    ∃ final, frameSearch next roots finite = final ∧
      Visits next (size next final.asked) {} roots final ∧
      final.cycles = detectCycles next roots finite ∧
      final.asked.Nodup ∧ (∀ a, a ∈ final.asked ↔ Reach next roots a) ∧
      ∀ front back, roots = front ++ back →
        ∃ m n s, Visits next m {} front s ∧ s.Idle ∧ Visits next n s back final := by
  have hroots : ∀ r ∈ roots, Reach next roots r := fun _ h => .root h
  have hstart := sound_start next roots
  have hfinal : frameSearch next roots finite = (cycleSearch next roots finite).laidOut :=
    visitAll_laidOut finite (fun _ h => h) hroots rfl hstart
  refine ⟨_, rfl, ?_, ?_, ?_, fun a => ?_, ?_⟩
  · -- Nothing was asked for at the start, so the turns are what was asked for in the end.
    obtain ⟨n, hn⟩ := visits_visitAll finite hroots {}
    have hcost : size next (frameSearch next roots finite).asked = 0 + n := hn.cost
    rw [hcost, Nat.zero_add]
    exact hn
  · rw [hfinal]
    rfl
  · rw [hfinal]
    exact List.nodup_reverse.mpr (sound_cycleSearch finite).nodup_entered
  · rw [hfinal, ← mem_entered_iff finite]
    exact List.mem_reverse
  · rintro front back rfl
    have hfront : ∀ r ∈ front, r ∈ front ++ back := fun r => List.mem_append_left _
    have hback : ∀ r ∈ back, r ∈ front ++ back := fun r => List.mem_append_right _
    obtain ⟨m, hm⟩ := visits_visitAll finite (fun r hr => hroots r (hfront r hr)) {}
    obtain ⟨n, hn⟩ := visits_visitAll finite (fun r hr => hroots r (hback r hr))
      (visitAll next finite front (fun r hr => hroots r (hfront r hr)) {})
    refine ⟨m, n, _, hm, ?_, ?_⟩
    · -- Between two roots the plain search has an empty path, from which the tables are laid out.
      have hbetween : visitAll next finite front (fun r hr => hroots r (hfront r hr)) {} =
          (exploreAll next finite front (fun r hr => hroots r (hfront r hr)) {}).laidOut :=
        visitAll_laidOut finite hfront _ rfl hstart
      rw [hbetween]
      exact idle_laidOut (exploreAll_steps finite hfront _ rfl).2.1
    · rw [frameSearch, visitAll_append]
      exact hn

/-- Three numbers in a ring, which every number leads to, by two steps at once. -/
def ring (n : Nat) : List Nat :=
  [(n + 1) % 3, (n + 1) % 3]

/-- Whatever the roots are, the ring adds three numbers. -/
theorem finiteReach_ring (roots : List Nat) : FiniteReach ring roots := by
  refine .of_forall_mem roots [0, 1, 2] fun a b hb => ?_
  simp only [ring, List.mem_cons, List.not_mem_nil, or_false] at hb ⊢
  omega

/-- Two successors that are the same are looked at twice and asked for once. -/
theorem frameSearch_asks_once_ring :
    (frameSearch ring [7, 0, 7] (finiteReach_ring _)).asked = [7, 2, 0, 1] ∧
      (frameSearch ring [7, 0, 7] (finiteReach_ring _)).cycles = [[2, 0, 1, 2], [2, 0, 1, 2]] ∧
      Visits ring 12 {} [7, 0, 7] (frameSearch ring [7, 0, 7] (finiteReach_ring _)) ∧
      ∃ m n s, Visits ring m {} [7] s ∧ s.Idle ∧
        Visits ring n s [0, 7] (frameSearch ring [7, 0, 7] (finiteReach_ring _)) := by
  obtain ⟨final, rfl, hvisits, hcycles, -, -, hbetween⟩ :=
    frameSearch_asks_once (finiteReach_ring [7, 0, 7])
  have hasked : (frameSearch ring [7, 0, 7] (finiteReach_ring _)).asked = [7, 2, 0, 1] := by cbv
  have hfound : detectCycles ring [7, 0, 7] (finiteReach_ring _) =
      [[2, 0, 1, 2], [2, 0, 1, 2]] := by cbv
  rw [hasked] at hvisits
  exact ⟨hasked, hcycles.trans hfound, hvisits, hbetween [7] [0, 7] rfl⟩

end HotRename
