import HotRename.Proofs.Graph.CycleSearch

/-!
# What a search for cycles finds

A node is finished when the search has left it. By then each of its successors is finished as well,
or the step to it closes a reported cycle. So without the steps that close the reported cycles,
no walk leads from a finished node back to it. Main statements:

* `mem_entered_iff`          the search enters the nodes that can be reached
* `detectCycles_isCycle`     what is reported is a cycle of reached nodes
* `exists_closes`            every closed walk has a step with which a reported cycle closes
* `exists_mem_cycle`         a node is on a reported cycle if there is a single way round
* `detectCycles_ne_nil_iff`  some cycle is reported if some reached node lies on one
-/

namespace HotRename

variable {α : Type u} {next : α → List α} {roots : List α} {a b : α}

namespace CycleSearch

/-! ## Settled steps -/

/-- One of the cycles ends with the step from the first node to the second. -/
def Closes (cycles : List (List α)) (a b : α) : Prop :=
  ∃ cycle ∈ cycles, [a, b] <:+ cycle

/-- A step that closes one of the cycles closes one of more cycles. -/
theorem Closes.append {cycles : List (List α)} (h : Closes cycles a b) (more : List (List α)) :
    Closes (cycles ++ more) a b := by
  obtain ⟨cycle, hcycle, hsuffix⟩ := h
  exact ⟨cycle, List.mem_append_left _ hcycle, hsuffix⟩

/-- The node was entered and has been left again. -/
def Finished (s : CycleSearch α) (a : α) : Prop :=
  a ∈ s.entered ∧ a ∉ s.onPath

/-- The step leads to a finished node, or it closes a reported cycle. -/
def Settled (s : CycleSearch α) (a b : α) : Prop :=
  s.Finished b ∨ Closes s.cycles a b

/-- Each successor of a node on the path is still to be looked at, or comes next on the path
    (`above` follows the first node of the list), or has been settled. -/
def Covered (next : α → List α) (settled : α → α → Prop) : Option α → List (α × List α) → Prop
  | _, [] => True
  | above, (a, later) :: below =>
    (∀ b ∈ next a, b ∈ later ∨ above = some b ∨ settled a b) ∧
      Covered next settled (some a) below

namespace Covered

variable {settled settled' : α → α → Prop} {above : Option α} {path : List (α × List α)}

/-- What is covered stays covered when more steps are settled. -/
theorem mono (h : Covered next settled above path)
    (hsettled : ∀ a b, settled a b → settled' a b) : Covered next settled' above path := by
  induction path generalizing above with
  | nil => trivial
  | cons frame below ih =>
    refine ⟨fun b hb => ?_, ih h.2⟩
    rcases h.1 b hb with hlater | habove | hdone
    · exact .inl hlater
    · exact .inr (.inl habove)
    · exact .inr (.inr (hsettled _ _ hdone))

/-- Once every step to the node that comes next is settled, it need not be named. -/
theorem forget (h : Covered next settled (some b) path) (hsettled : ∀ a, settled a b) :
    Covered next settled none path := by
  cases path with
  | nil => trivial
  | cons frame below =>
    refine ⟨fun c hc => ?_, h.2⟩
    rcases h.1 c hc with hlater | habove | hdone
    · exact .inl hlater
    · cases habove
      exact .inr (.inr (hsettled _))
    · exact .inr (.inr hdone)

/-- A successor need no longer be looked at if it comes next or the step to it is settled. -/
theorem look {later : List α} (h : Covered next settled none ((a, b :: later) :: path))
    (hb : above = some b ∨ settled a b) : Covered next settled above ((a, later) :: path) := by
  refine ⟨fun c hc => ?_, h.2⟩
  rcases h.1 c hc with hlater | hnone | hdone
  · rcases List.mem_cons.mp hlater with rfl | hlater
    · exact .inr hb
    · exact .inl hlater
  · cases hnone
  · exact .inr (.inr hdone)

end Covered

section Finish

variable {entered later : List α} {path : List (α × List α)} {cycles : List (List α)}

/-- Entering a node finishes none. -/
theorem finished_enter (hb : b ∉ entered) :
    Finished { entered := b :: entered, path := (b, later) :: path, cycles } a ↔
      Finished { entered, path, cycles } a := by
  simp only [Finished, onPath, List.map_cons, List.mem_cons, not_or]
  constructor
  · rintro ⟨ha, hne, hpath⟩
    exact ⟨ha.resolve_left hne, hpath⟩
  · rintro ⟨ha, hpath⟩
    exact ⟨.inr ha, fun hab => hb (hab ▸ ha), hpath⟩

/-- Leaving the end of the path finishes it. -/
theorem finished_leave (hb : b ∈ entered) (hnot : b ∉ path.map Prod.fst) :
    Finished { entered, path, cycles } a ↔
      a = b ∨ Finished { entered, path := (b, later) :: path, cycles } a := by
  simp only [Finished, onPath, List.map_cons, List.mem_cons, not_or]
  constructor
  · rintro ⟨ha, hpath⟩
    by_cases hab : a = b
    · exact .inl hab
    · exact .inr ⟨ha, hab, hpath⟩
  · rintro (rfl | ⟨ha, -, hpath⟩)
    · exact ⟨hb, hnot⟩
    · exact ⟨ha, hpath⟩

end Finish

/-! ## What is left without the closing steps -/

variable [DecidableEq α] {s s' : CycleSearch α}

instance (cycles : List (List α)) (a b : α) : Decidable (Closes cycles a b) :=
  inferInstanceAs (Decidable (∃ cycle ∈ cycles, [a, b] <:+ cycle))

/-- The successors without those to which a step closes one of the cycles. -/
def remaining (next : α → List α) (cycles : List (List α)) (a : α) : List α :=
  (next a).filter fun b => ¬ Closes cycles a b

/-- The remaining successors are those that close none of the cycles. -/
theorem mem_remaining {cycles : List (List α)} :
    b ∈ remaining next cycles a ↔ b ∈ next a ∧ ¬ Closes cycles a b := by
  simp [remaining]

/-- More cycles leave fewer successors. -/
theorem not_onCycle_append {cycles : List (List α)} (h : ¬ OnCycle (remaining next cycles) a)
    (more : List (List α)) : ¬ OnCycle (remaining next (cycles ++ more)) a := by
  refine fun hcycle => h (LeadsTo.mono (Reach.self a) (fun x _ y hy => ?_) hcycle)
  obtain ⟨hy, hnot⟩ := mem_remaining.mp hy
  exact mem_remaining.mpr ⟨hy, fun hcloses => hnot (hcloses.append more)⟩

/-- What is known of the steps settled so far. -/
structure Complete (next : α → List α) (s : CycleSearch α) : Prop where
  covered : Covered next s.Settled none s.path
  settled : ∀ a, s.Finished a → ∀ b ∈ next a, s.Settled a b
  acyclic : ∀ a, s.Finished a → ¬ OnCycle (remaining next s.cycles) a

/-- Before the search no node is finished. -/
theorem complete_start (next : α → List α) : Complete next {} where
  covered := trivial
  settled _ h := nomatch h.1
  acyclic _ h := nomatch h.1

namespace Complete

/-- From finished nodes, the remaining steps lead to finished nodes only. -/
theorem finished_of_reach (h : Complete next s) {starts : List α}
    (hstarts : ∀ r ∈ starts, s.Finished r) (hreach : Reach (remaining next s.cycles) starts a) :
    s.Finished a := by
  refine hreach.mem_of_closed hstarts fun x hx y hy => ?_
  obtain ⟨hy, hnot⟩ := mem_remaining.mp hy
  exact (h.settled x hx y hy).resolve_right hnot

variable {entered later : List α} {path : List (α × List α)} {cycles : List (List α)}

/-- Entering a node adds its successors to those to be looked at. -/
theorem enter (hcovered : Covered next (Settled { entered, path, cycles }) (some b) path)
    (hsettled : ∀ a, Finished { entered, path, cycles } a →
      ∀ c ∈ next a, Settled { entered, path, cycles } a c)
    (hacyclic : ∀ a, Finished { entered, path, cycles } a → ¬ OnCycle (remaining next cycles) a)
    (hnew : b ∉ entered) :
    Complete next { entered := b :: entered, path := (b, next b) :: path, cycles } := by
  have hkept : ∀ a c, Settled { entered, path, cycles } a c →
      Settled { entered := b :: entered, path := (b, next b) :: path, cycles } a c :=
    fun a c h => h.imp_left (finished_enter hnew).mpr
  refine ⟨⟨fun c hc => .inl hc, hcovered.mono hkept⟩, fun a ha c hc => ?_, fun a ha => ?_⟩
  · exact hkept a c (hsettled a ((finished_enter hnew).mp ha) c hc)
  · exact hacyclic a ((finished_enter hnew).mp ha)

/-- Looking at a successor keeps what is known if the step to it is settled by that. -/
theorem look (h : Complete next { entered, path := (a, b :: later) :: path, cycles })
    (more : List (List α))
    (hb : Settled { entered, path := (a, later) :: path, cycles := cycles ++ more } a b) :
    Complete next { entered, path := (a, later) :: path, cycles := cycles ++ more } := by
  have hkept : ∀ x y, Settled { entered, path := (a, b :: later) :: path, cycles } x y →
      Settled { entered, path := (a, later) :: path, cycles := cycles ++ more } x y :=
    fun x y h => h.imp_right fun h => h.append more
  refine ⟨(h.covered.mono hkept).look (.inr hb), fun x hx y hy => ?_, fun x hx => ?_⟩
  · exact hkept x y (h.settled x hx y hy)
  · exact not_onCycle_append (h.acyclic x hx) more

/-- A node is left when every step from it is settled. The remaining ones lead to nodes that were
    finished before, from which no way leads back to it. -/
theorem leave (h : Complete next { entered, path := (a, []) :: path, cycles }) (ha : a ∈ entered)
    (hnot : a ∉ path.map Prod.fst) : Complete next { entered, path, cycles } := by
  have hfinished : ∀ x, Finished { entered, path, cycles } x ↔
      x = a ∨ Finished { entered, path := (a, []) :: path, cycles } x :=
    fun x => finished_leave ha hnot
  have hkept : ∀ x y, Settled { entered, path := (a, []) :: path, cycles } x y →
      Settled { entered, path, cycles } x y :=
    fun x y h => h.imp_left fun hy => (hfinished y).mpr (.inr hy)
  -- Nothing is left to be looked at, and the node is the end of the path.
  have hsteps : ∀ b ∈ next a, Settled { entered, path := (a, []) :: path, cycles } a b := by
    intro b hb
    rcases h.covered.1 b hb with hlater | habove | hsettled
    · cases hlater
    · cases habove
    · exact hsettled
  refine ⟨(h.covered.2.mono hkept).forget fun x => .inl ((hfinished a).mpr (.inl rfl)),
    fun x hx b hb => ?_, fun x hx => ?_⟩
  · rcases (hfinished x).mp hx with rfl | hx
    · exact hkept x b (hsteps b hb)
    · exact hkept x b (h.settled x hx b hb)
  · rcases (hfinished x).mp hx with rfl | hx
    -- A way round would lead from finished nodes to the node itself, which is not finished yet.
    · intro hcycle
      have hx : Finished { entered, path := (x, []) :: path, cycles } x := by
        refine h.finished_of_reach (fun r hr => ?_) hcycle
        obtain ⟨hr, hopen⟩ := mem_remaining.mp hr
        exact (hsteps r hr).resolve_right hopen
      exact hx.2 List.mem_cons_self
    · exact h.acyclic x hx

/-- A step keeps what is known of the settled steps. -/
theorem step (h : Complete next s) (hsound : Sound next roots s)
    (hstep : Step next roots s s') : Complete next s' := by
  obtain ⟨entered, path, cycles⟩ := s
  cases hstep with
  | root hpath hr hnew =>
    subst hpath
    exact enter trivial h.settled h.acyclic hnew
  | leave hpath =>
    subst hpath
    exact h.leave (hsound.onPath_entered _ List.mem_cons_self)
      (List.nodup_cons.mp hsound.nodup_onPath).1
  -- The new cycle settles the step that closes it.
  | @close a b later below hpath hb =>
    subst hpath
    exact h.look [closing b (a :: below.map Prod.fst)]
      (.inr ⟨_, List.mem_append_right _ (List.mem_singleton.mpr rfl), closing_suffix a b _⟩)
  | @pass a b later below hpath hb hold =>
    subst hpath
    -- The successor is finished, since it was entered and is not on the path.
    have hlook := h.look [] (.inl ⟨hold, hb⟩)
    rwa [List.append_nil] at hlook
  | enter hpath hnew =>
    subst hpath
    exact enter (h.covered.look (.inl rfl)) h.settled h.acyclic hnew

end Complete

/-- The finished search has settled the steps from all finished nodes. -/
theorem complete_cycleSearch (finite : FiniteReach next roots) :
    Complete next (cycleSearch next roots finite) := by
  have hkeeps := (cycleSearch_steps finite).1.keeps
    (P := fun s => Sound next roots s ∧ Complete next s)
    ⟨sound_start next roots, complete_start next⟩
    fun s s' h hstep => ⟨h.1.step hstep, h.2.step h.1 hstep⟩
  exact hkeeps.2

/-! ## The finished search -/

/-- After the search, every node that was entered is finished. -/
theorem finished_iff (finite : FiniteReach next roots) :
    (cycleSearch next roots finite).Finished a ↔ a ∈ (cycleSearch next roots finite).entered := by
  simp [Finished, onPath, (cycleSearch_steps finite).2.1]

/-- The search enters the nodes that can be reached from its roots. -/
theorem mem_entered_iff (finite : FiniteReach next roots) :
    a ∈ (cycleSearch next roots finite).entered ↔ Reach next roots a := by
  have hsound := sound_cycleSearch finite
  refine ⟨hsound.reach a, fun h => h.mem_of_closed (cycleSearch_steps finite).2.2 ?_⟩
  intro x hx y hy
  have hx := (finished_iff finite).mpr hx
  rcases (complete_cycleSearch finite).settled x hx y hy with hy | ⟨cycle, hcycle, hsuffix⟩
  · exact hy.1
  · -- The step closes a reported cycle, whose nodes were all entered.
    exact (hsound.cycles cycle hcycle).2 y (hsuffix.subset (by simp))

end CycleSearch

open CycleSearch

variable [DecidableEq α]

/-- What is reported is a cycle, and its nodes can be reached from the roots. -/
theorem detectCycles_isCycle (finite : FiniteReach next roots) {cycle : List α}
    (h : cycle ∈ detectCycles next roots finite) :
    IsCycle next cycle ∧ ∀ a ∈ cycle, Reach next roots a := by
  have hsound := sound_cycleSearch finite
  obtain ⟨hcycle, hentered⟩ := hsound.cycles cycle h
  exact ⟨hcycle, fun a ha => hsound.reach a (hentered a ha)⟩

/-- Without the steps that close the reported cycles no reached node lies on a cycle. -/
theorem not_onCycle_remaining (finite : FiniteReach next roots) (ha : Reach next roots a) :
    ¬ OnCycle (remaining next (detectCycles next roots finite)) a :=
  (complete_cycleSearch finite).acyclic a
    ((finished_iff finite).mpr ((mem_entered_iff finite).mpr ha))

/-- Every closed walk through reached nodes has a step with which a reported cycle closes. -/
theorem exists_closes (finite : FiniteReach next roots) {walk : List α}
    (hwalk : IsClosedWalk next walk) (hreach : ∀ a ∈ walk, Reach next roots a) :
    ∃ a b, [a, b] <:+: walk ∧ Closes (detectCycles next roots finite) a b := by
  by_contra hnone
  obtain ⟨a, between, rfl, hchain⟩ := hwalk
  -- Otherwise the walk would remain when the closing steps are taken away.
  have hremaining : IsClosedWalk (remaining next (detectCycles next roots finite))
      (a :: between ++ [a]) := by
    rw [List.isChain_iff_forall_rel_of_append_cons_cons] at hchain
    refine ⟨a, between, rfl, List.isChain_iff_forall_rel_of_append_cons_cons.mpr ?_⟩
    intro x y front back hsplit
    have hinfix : [x, y] <:+: a :: between ++ [a] := ⟨front, back, by simp [hsplit]⟩
    exact mem_remaining.mpr ⟨hchain hsplit, fun hcloses => hnone ⟨x, y, hinfix, hcloses⟩⟩
  exact not_onCycle_remaining finite (hreach a (by simp)) (hremaining.onCycle (by simp))

/-- Of each node on a cycle with this one, a single successor leads back to it. -/
def SingleReturn (next : α → List α) (a : α) : Prop :=
  ∀ x, LeadsTo next a x → LeadsTo next x a →
    ∀ y ∈ next x, ∀ z ∈ next x, LeadsTo next y x → LeadsTo next z x → y = z

/-- A reached node on a cycle is on a reported one if there is a single way round. -/
theorem exists_mem_cycle (finite : FiniteReach next roots) (ha : Reach next roots a)
    (hcycle : OnCycle next a) (hsingle : SingleReturn next a) :
    ∃ cycle ∈ detectCycles next roots finite, a ∈ cycle := by
  -- Some step of a closed walk through the node closes a reported cycle.
  obtain ⟨between, hwalk⟩ := hcycle.exists_isClosedWalk
  have hstart : a ∈ a :: between ++ [a] := by simp
  obtain ⟨x, y, hinfix, cycle, hreported, hsuffix⟩ :=
    exists_closes finite hwalk fun b hb => (hwalk.leadsTo hstart hb).reach ha
  have hclosed := (detectCycles_isCycle finite hreported).1.closed
  have hy : y ∈ a :: between ++ [a] := hinfix.subset (by simp)
  -- From the end of the closing step on, the way back to the node follows the reported cycle.
  have hfollow : ∀ b, Reach next [y] b → LeadsTo next b a → b ∈ cycle := by
    intro b hb
    induction hb with
    | root hr =>
      intro _
      cases List.mem_singleton.mp hr
      exact hsuffix.subset (by simp)
    | @step b c hb hc ih =>
      intro hca
      have hbc : LeadsTo next b c := .of_mem hc
      have hab : LeadsTo next a b := (hwalk.leadsTo hstart hy).trans_reach hb
      -- The cycle goes on from `b`, and there is a single way back from there.
      obtain ⟨c', hmem, hc'⟩ := hclosed.exists_next (ih (hbc.trans hca))
      have hback := hclosed.leadsTo hmem (ih (hbc.trans hca))
      cases hsingle b hab (hbc.trans hca) c hc c' hc' (hca.trans hab) hback
      exact hmem
  exact ⟨cycle, hreported,
    hfollow a ((hwalk.leadsTo hy hstart).reach (Reach.self y)) hcycle⟩

/-- Some cycle is reported exactly if some reached node lies on a cycle. -/
theorem detectCycles_ne_nil_iff (finite : FiniteReach next roots) :
    detectCycles next roots finite ≠ [] ↔ ∃ a, Reach next roots a ∧ OnCycle next a := by
  constructor
  · intro hne
    obtain ⟨cycle, hcycle⟩ := List.exists_mem_of_ne_nil _ hne
    obtain ⟨hcycle, hreach⟩ := detectCycles_isCycle finite hcycle
    obtain ⟨a, between, rfl, -⟩ := id hcycle.closed
    exact ⟨a, hreach a (by simp), hcycle.closed.onCycle (by simp)⟩
  · rintro ⟨a, ha, hcycle⟩ hnil
    -- Without reports all steps remain.
    have hnone : remaining next (detectCycles next roots finite) = next := by
      funext x
      simp [remaining, Closes, hnil]
    refine not_onCycle_remaining finite ha ?_
    rw [hnone]
    exact hcycle

end HotRename
