import HotRename.Proofs.Graph.CyclesFound
import HotRename.Proofs.Rename.Cascade
import Mathlib.Data.List.TFAE

/-!
# Order and circles of a cascade

The graph that a finished walk has collected agrees with the dependents of every symbol that can be
reached. So what holds of the order and of the cycles of the graph holds of the dependents. Main
statements:

* `compute_order_circular`  the order puts a symbol before its dependents as far as no circle
  prevents it, and the circular flag is set if there is a circle
* `compute_circles`         what is reported are circles, and no circle is without a reported step
* `circularMembers_missing` a symbol on a circle that is not named
-/

namespace HotRename

namespace Cascade

variable {dependents : List SymbolId → Answer (List Dependent)} {changed : List SymbolId}
  {w : Walk} {a b : SymbolId}

/-! ## The graph and the relation -/

/-- The symbol lies on a circle of symbols of the cascade, or can be reached from one. -/
def BehindCircle (dependents : List SymbolId → Answer (List Dependent))
    (changed : List SymbolId) (id : SymbolId) : Prop :=
  ∃ c, Reach (dependentIds dependents) changed c ∧ OnCycle (dependentIds dependents) c ∧
    Reach (dependentIds dependents) [c] id

namespace Walk.Explored

/-- On what can be reached, the graph has the dependents for successors. -/
theorem successors_agree (h : Explored dependents changed w) (hend : w.pending = []) :
    ∀ a, Reach (dependentIds dependents) changed a →
      ∀ b, b ∈ w.graph.successors a ↔ b ∈ dependentIds dependents a :=
  fun _ ha _ => h.mem_successors_iff hend ha

/-- The same symbols lie behind a cycle of the graph and behind a circle of the cascade. -/
theorem behindCycle_iff (h : Explored dependents changed w) (hend : w.pending = []) :
    BehindCycle w.graph.successors a ↔ BehindCircle dependents changed a := by
  have hagree := h.successors_agree hend
  -- From a symbol of the cascade, both relations lead to the same symbols.
  have hfrom : ∀ c, Reach (dependentIds dependents) changed c →
      (Reach w.graph.successors [c] a ↔ Reach (dependentIds dependents) [c] a) := by
    intro c hc
    refine Reach.congr fun x hx => hagree x (Reach.trans (fun r hr => ?_) hx)
    cases List.mem_singleton.mp hr
    exact hc
  constructor
  · rintro ⟨c, hcycle, hreach⟩
    have hc := (h.mem_nodes_iff hend).mp (DependencyGraph.mem_nodes_of_onCycle hcycle)
    exact ⟨c, hc, (LeadsTo.congr hagree hc).mp hcycle, (hfrom c hc).mp hreach⟩
  · rintro ⟨c, hc, hcycle, hreach⟩
    exact ⟨c, (LeadsTo.congr hagree hc).mpr hcycle, (hfrom c hc).mpr hreach⟩

/-- Nodes of the graph that lie on a cycle are symbols of the cascade on a circle. -/
theorem exists_onCycle_iff (h : Explored dependents changed w) (hend : w.pending = []) :
    (∃ a, OnCycle w.graph.successors a) ↔
      ∃ a, Reach (dependentIds dependents) changed a ∧ OnCycle (dependentIds dependents) a := by
  have hagree := h.successors_agree hend
  constructor
  · rintro ⟨a, hcycle⟩
    have ha := (h.mem_nodes_iff hend).mp (DependencyGraph.mem_nodes_of_onCycle hcycle)
    exact ⟨a, ha, (LeadsTo.congr hagree ha).mp hcycle⟩
  · rintro ⟨a, ha, hcycle⟩
    exact ⟨a, (LeadsTo.congr hagree ha).mpr hcycle⟩

end Walk.Explored

/-! ## Order and flag -/

/-- The first symbol comes before the second. -/
def Precedes (order : List SymbolId) (a b : SymbolId) : Prop :=
  b ∈ order ∧ order.idxOf a < order.idxOf b

/-- Circles were reported, or symbols were left unordered. -/
theorem hasCircular_ofWalk :
    (ofWalk changed w).hasCircular = true ↔
      (ofWalk changed w).circular ≠ [] ∨ w.graph.topologicalOrder.unordered ≠ [] := by
  simp [ofWalk, TopologicalOrder.isComplete]

/-- Circles are reported exactly if there are some. -/
theorem circular_ne_nil_iff (h : w.Explored dependents changed) (hend : w.pending = []) :
    (ofWalk changed w).circular ≠ [] ↔
      ∃ a, Reach (dependentIds dependents) changed a ∧ OnCycle (dependentIds dependents) a := by
  have hagree := h.successors_agree hend
  rw [ofWalk, DependencyGraph.cyclesFrom, detectCycles_ne_nil_iff]
  refine exists_congr fun a => ?_
  rw [Reach.congr hagree]
  exact and_congr_right fun ha => LeadsTo.congr hagree ha

/-- A symbol comes before its dependents unless it lies behind a circle, and before all symbols
    that do; the flag is set, circles are reported and symbols are left unordered if and only if
    some symbol of the cascade lies on a circle. -/
theorem compute_order_circular (finite : FiniteReach (dependentIds dependents) changed)
    (hanswers : NeverFails dependents changed) :
    ∃ w, (walk dependents finite (.start changed) (start_reached dependents changed)).answer =
        .ok w ∧
      (compute dependents changed finite).answer = .ok (ofWalk changed w) ∧
      (∀ u v, Reach (dependentIds dependents) changed u → v ∈ dependentIds dependents u →
        ¬ BehindCircle dependents changed u → Precedes (ofWalk changed w).order u v) ∧
      (∀ u v, Reach (dependentIds dependents) changed u →
        Reach (dependentIds dependents) changed v → ¬ BehindCircle dependents changed u →
        BehindCircle dependents changed v → Precedes (ofWalk changed w).order u v) ∧
      [(ofWalk changed w).hasCircular = true,
        (ofWalk changed w).circular ≠ [],
        w.graph.topologicalOrder.unordered ≠ [],
        ∃ a, Reach (dependentIds dependents) changed a ∧
          OnCycle (dependentIds dependents) a].TFAE := by
  obtain ⟨w, hwalk, hanswer, -, hexplored, hend⟩ := exists_walk finite hanswers
  have hmem : ∀ v, Reach (dependentIds dependents) changed v → v ∈ (ofWalk changed w).order :=
    fun v hv => w.graph.sequence_perm.mem_iff.mpr ((hexplored.mem_nodes_iff hend).mpr hv)
  have hcircular := circular_ne_nil_iff hexplored hend
  -- Nodes are left unordered exactly if the graph has a cycle.
  have hunordered : w.graph.topologicalOrder.unordered ≠ [] ↔ _ :=
    DependencyGraph.unordered_ne_nil_iff.trans (hexplored.exists_onCycle_iff hend)
  refine ⟨w, hwalk, hanswer, fun u v hu huv hfree => ⟨hmem v (.step hu huv), ?_⟩,
    fun u v hu hv hfree hbehind => ⟨hmem v hv, ?_⟩, ?_⟩
  · rw [← hexplored.behindCycle_iff hend] at hfree
    exact DependencyGraph.idxOf_sequence_lt hfree ((hexplored.mem_successors_iff hend hu).mpr huv)
  · rw [← hexplored.behindCycle_iff hend] at hfree hbehind
    exact DependencyGraph.idxOf_sequence_lt_of_behindCycle
      ((hexplored.mem_nodes_iff hend).mpr hu) hfree hbehind
  · rw [hasCircular_ofWalk, hcircular, hunordered, or_self]
    exact List.tfae_of_forall
      (∃ a, Reach (dependentIds dependents) changed a ∧ OnCycle (dependentIds dependents) a) _
      (by simp)

/-- The first script of the tangle depends on nothing, so it lies behind no circle. -/
theorem not_behindCircle_tangle :
    ¬ BehindCircle tangle.dependentsAnswer [script "s", script "s"] (script "s") := by
  have hnone : ∀ id, script "s" ∉ dependentIds tangle.dependentsAnswer id := by
    intro id hid
    obtain ⟨row, hrow, -, hs⟩ := mem_dependentIds_scripts.mp hid
    revert row
    decide
  have hroot : ∀ roots, Reach (dependentIds tangle.dependentsAnswer) roots (script "s") →
      script "s" ∈ roots := by
    intro roots h
    cases h with
    | root hr => exact hr
    | step _ hb => exact absurd hb (hnone _)
  -- Such a circle would go through the script itself.
  rintro ⟨c, -, hcycle, hreach⟩
  cases List.mem_singleton.mp (hroot _ hreach)
  exact hnone _ (hroot _ hcycle)

/-- In the tangle the first script comes first, and the flag is set. -/
theorem compute_order_circular_tangle :
    ∃ w, (compute tangle.dependentsAnswer [script "s", script "s"] (tangle.finite _)).answer =
        .ok (ofWalk [script "s", script "s"] w) ∧
      Precedes (ofWalk [script "s", script "s"] w).order (script "s") (script "a") ∧
      (ofWalk [script "s", script "s"] w).hasCircular = true := by
  obtain ⟨w, -, hanswer, horder, -, hcircular⟩ :=
    compute_order_circular (tangle.finite _)
      (neverFails_table tangle (by decide) [script "s", script "s"])
  have hs : Reach (dependentIds tangle.dependentsAnswer) [script "s", script "s"] (script "s") :=
    .root List.mem_cons_self
  have hsa : script "a" ∈ dependentIds tangle.dependentsAnswer (script "s") :=
    mem_dependentIds_scripts.mpr (by decide)
  -- The scripts `a` and `b` depend on each other.
  have haa : OnCycle (dependentIds tangle.dependentsAnswer) (script "a") :=
    .step (.root (mem_dependentIds_scripts.mpr ⟨("a", "b"), by decide, rfl, rfl⟩))
      (mem_dependentIds_scripts.mpr ⟨("b", "a"), by decide, rfl, rfl⟩)
  have hflag : (ofWalk [script "s", script "s"] w).hasCircular = true ↔
      ∃ a, Reach (dependentIds tangle.dependentsAnswer) [script "s", script "s"] a ∧
        OnCycle (dependentIds tangle.dependentsAnswer) a := hcircular.out 0 3
  exact ⟨w, hanswer, horder _ _ hs hsa not_behindCircle_tangle,
    hflag.mpr ⟨_, .step hs hsa, haa⟩⟩

/-! ## Reported circles -/

/-- The symbols that are named are those on the reported circles. -/
theorem mem_circularMembers {c : Cascade} :
    a ∈ c.circularMembers ↔ ∃ cycle ∈ c.circular, a ∈ cycle := by
  rw [circularMembers, SymbolId.sortDistinct, (List.mergeSort_perm _ _).mem_iff,
    List.mem_eraseDups, List.mem_flatten]

/-- What is reported are circles of symbols of the cascade. -/
theorem isCycle_of_mem_circular (h : w.Explored dependents changed) (hend : w.pending = [])
    {cycle : List SymbolId} (hcycle : cycle ∈ (ofWalk changed w).circular) :
    IsCycle (dependentIds dependents) cycle ∧
      ∀ a ∈ cycle, Reach (dependentIds dependents) changed a := by
  have hagree := h.successors_agree hend
  obtain ⟨⟨hclosed, hnodup⟩, hreached⟩ := detectCycles_isCycle _ hcycle
  have hreached : ∀ a ∈ cycle, Reach (dependentIds dependents) changed a :=
    fun a ha => (Reach.congr hagree).mp (hreached a ha)
  exact ⟨⟨(IsClosedWalk.congr hagree hreached).mp hclosed, hnodup⟩, hreached⟩

/-- Every circle of symbols of the cascade has a step with which a reported one closes. -/
theorem exists_closes_circular (h : w.Explored dependents changed) (hend : w.pending = [])
    {circle : List SymbolId} (hcircle : IsClosedWalk (dependentIds dependents) circle)
    (hreached : ∀ a ∈ circle, Reach (dependentIds dependents) changed a) :
    ∃ a b, [a, b] <:+: circle ∧ CycleSearch.Closes (ofWalk changed w).circular a b := by
  have hagree := h.successors_agree hend
  exact exists_closes (w.graph.finiteReach changed)
    ((IsClosedWalk.congr hagree hreached).mpr hcircle)
    fun a ha => (Reach.congr hagree).mpr (hreached a ha)

/-- A symbol on a circle is named if there is a single way round. -/
theorem mem_circularMembers_of_singleReturn (h : w.Explored dependents changed)
    (hend : w.pending = []) (ha : Reach (dependentIds dependents) changed a)
    (hcycle : OnCycle (dependentIds dependents) a)
    (hsingle : SingleReturn (dependentIds dependents) a) :
    a ∈ (ofWalk changed w).circularMembers := by
  have hagree := h.successors_agree hend
  refine mem_circularMembers.mpr (exists_mem_cycle (w.graph.finiteReach changed)
    ((Reach.congr hagree).mpr ha) ((LeadsTo.congr hagree ha).mpr hcycle) ?_)
  -- The ways back in the graph are those in the relation.
  intro x hax hxa y hy z hz hyx hzx
  rw [LeadsTo.congr hagree ha] at hax
  have hx := hax.reach ha
  rw [hagree x hx] at hy hz
  rw [LeadsTo.congr hagree hx] at hxa
  rw [LeadsTo.congr hagree (.step hx hy)] at hyx
  rw [LeadsTo.congr hagree (.step hx hz)] at hzx
  exact hsingle x hax hxa y hy z hz hyx hzx

/-- What is reported are circles of symbols of the cascade. Each circle has a step with which a
    reported one closes, so both ends of that step are named; all its symbols are named if each of
    them has a single dependent that leads back to it. -/
theorem compute_circles (finite : FiniteReach (dependentIds dependents) changed)
    (hanswers : NeverFails dependents changed) :
    ∃ c, (compute dependents changed finite).answer = .ok c ∧
      (∀ cycle ∈ c.circular, IsCycle (dependentIds dependents) cycle) ∧
      (∀ a ∈ c.circularMembers, Reach (dependentIds dependents) changed a ∧
        OnCycle (dependentIds dependents) a) ∧
      (∀ circle, IsClosedWalk (dependentIds dependents) circle →
        (∀ a ∈ circle, Reach (dependentIds dependents) changed a) →
        ∃ a b, [a, b] <:+: circle ∧ CycleSearch.Closes c.circular a b ∧
          a ∈ c.circularMembers ∧ b ∈ c.circularMembers) ∧
      ∀ a, Reach (dependentIds dependents) changed a → OnCycle (dependentIds dependents) a →
        SingleReturn (dependentIds dependents) a → a ∈ c.circularMembers := by
  obtain ⟨w, -, hanswer, -, hexplored, hend⟩ := exists_walk finite hanswers
  refine ⟨ofWalk changed w, hanswer,
    fun cycle hcycle => (isCycle_of_mem_circular hexplored hend hcycle).1,
    fun a ha => ?_, fun circle hcircle hreached => ?_,
    fun a ha hcycle hsingle => mem_circularMembers_of_singleReturn hexplored hend ha hcycle hsingle⟩
  · obtain ⟨cycle, hcycle, ha⟩ := mem_circularMembers.mp ha
    obtain ⟨hisCycle, hreached⟩ := isCycle_of_mem_circular hexplored hend hcycle
    exact ⟨hreached a ha, hisCycle.closed.onCycle ha⟩
  · obtain ⟨a, b, hinfix, cycle, hcycle, hsuffix⟩ :=
      exists_closes_circular hexplored hend hcircle hreached
    -- Both ends of the step are on the reported circle.
    have hnamed : ∀ x ∈ [a, b], x ∈ (ofWalk changed w).circularMembers :=
      fun x hx => mem_circularMembers.mpr ⟨cycle, hcycle, hsuffix.subset hx⟩
    exact ⟨a, b, hinfix, ⟨cycle, hcycle, hsuffix⟩, hnamed a (by simp), hnamed b (by simp)⟩

/-- Two scripts that depend on each other. -/
def pair : AnalyzerTables :=
  scripts [("a", "b"), ("b", "a")]

/-- For the pair there is a single way round. -/
theorem compute_circles_pair :
    ∃ c, (compute pair.dependentsAnswer [script "a"] (pair.finite _)).answer = .ok c ∧
      script "a" ∈ c.circularMembers := by
  obtain ⟨c, hanswer, -, -, -, hmember⟩ :=
    compute_circles (pair.finite _) (neverFails_table pair (by decide) [script "a"])
  have hcycle : OnCycle (dependentIds pair.dependentsAnswer) (script "a") :=
    .step (.root (mem_dependentIds_scripts.mpr ⟨("a", "b"), by decide, rfl, rfl⟩))
      (mem_dependentIds_scripts.mpr ⟨("b", "a"), by decide, rfl, rfl⟩)
  -- No script has more than one dependent.
  have hone : ∀ row ∈ [("a", "b"), ("b", "a")], ∀ row' ∈ [("a", "b"), ("b", "a")],
      script row'.1 = script row.1 → script row.2 = script row'.2 := by decide
  have hsingle : SingleReturn (dependentIds pair.dependentsAnswer) (script "a") := by
    intro x _ _ y hy z hz _ _
    obtain ⟨row, hrow, rfl, rfl⟩ := mem_dependentIds_scripts.mp hy
    obtain ⟨row', hrow', hx, rfl⟩ := mem_dependentIds_scripts.mp hz
    exact hone row hrow row' hrow' hx
  exact ⟨c, hanswer, hmember _ (.root List.mem_cons_self) hcycle hsingle⟩

/-- Two scripts depend on the first one, which depends on one of them, which depends on the
    other. -/
def detour : AnalyzerTables :=
  scripts [("a", "b"), ("a", "c"), ("b", "a"), ("c", "b")]

/-- The search comes to the last script after it has left the dependent of that script, so the
    circle through both is not reported. -/
theorem circularMembers_missing :
    NeverFails detour.dependentsAnswer [script "a"] ∧
      Reach (dependentIds detour.dependentsAnswer) [script "a"] (script "c") ∧
      OnCycle (dependentIds detour.dependentsAnswer) (script "c") ∧
      ∃ c, (compute detour.dependentsAnswer [script "a"] (detour.finite _)).answer = .ok c ∧
        script "c" ∉ c.circularMembers := by
  have hstep : ∀ row ∈ [("a", "b"), ("a", "c"), ("b", "a"), ("c", "b")],
      script row.2 ∈ dependentIds detour.dependentsAnswer (script row.1) :=
    fun row hrow => mem_dependentIds_scripts.mpr ⟨row, hrow, rfl, rfl⟩
  have hanswers := neverFails_table detour (by decide) [script "a"]
  obtain ⟨w, -, hanswer, -, -, -⟩ := exists_walk (detour.finite _) hanswers
  refine ⟨hanswers, .step (.root List.mem_cons_self) (hstep ("a", "c") (by decide)),
    .step (.step (.root (hstep ("c", "b") (by decide))) (hstep ("b", "a") (by decide)))
      (hstep ("a", "c") (by decide)), _, hanswer, fun hmem => ?_⟩
  -- One circle is reported, and it does not go through the last script.
  have hcircular : ((compute detour.dependentsAnswer [script "a"]
      (detour.finite _)).answer.map Cascade.circular).toOption =
        some [[script "a", script "b", script "a"]] := by cbv
  rw [hanswer] at hcircular
  rw [mem_circularMembers, Option.some.inj hcircular] at hmem
  revert hmem
  decide

end Cascade
end HotRename
