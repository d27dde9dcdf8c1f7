import HotRename.Collaborator.Table
import HotRename.Proofs.Graph.Insert
import HotRename.Proofs.Graph.Order
import HotRename.Proofs.Rename.Inquiry
import HotRename.Rename.Cascade
import Mathlib.Data.List.Permutation

/-!
# The cascade is what can be reached

The walk of a cascade passes over a symbol that was expanded before, or asks for the dependents of
the next one and expands it. Each of these steps keeps that the graph has an edge for each
dependent of an expanded symbol and no other, and that its nodes are the symbols found. When
nothing is left to be expanded, the symbols found are those that can be reached from the changed
ones. Main statements:

* `walk_steps`        the finished walk is the result of such steps
* `Explored.step`     a step keeps what is known of the symbols found
* `compute_closure`   a cascade holds what can be reached from the changed symbols
-/

namespace HotRename

namespace Cascade

variable {dependents : List SymbolId → Answer (List Dependent)} {changed : List SymbolId}
  {id current : SymbolId}

/-! ## Questions for dependents -/

/-- No question for the dependents of a symbol that can be reached fails. -/
def NeverFails (dependents : List SymbolId → Answer (List Dependent)) (changed : List SymbolId) :
    Prop :=
  ∀ id, Reach (dependentIds dependents) changed id →
    ∀ c reason, dependents [id] ≠ .error (.failed c reason)

/-- The dependents that an answer names are the steps of the relation. -/
theorem dependentIds_of_orDefault {found : List Dependent}
    (h : (dependents [id]).orDefault [] = .ok found) :
    dependentIds dependents id = found.map Dependent.symbolId := by
  unfold dependentIds
  rcases Answer.orDefault_eq_ok.mp h with hanswer | ⟨⟨c, hanswer⟩, rfl⟩
  · rw [hanswer]
  · rw [hanswer]
    rfl

/-- Every question on the way has an answer, or one that stands for it. -/
theorem NeverFails.orDefault_ok (h : NeverFails dependents changed)
    (hid : Reach (dependentIds dependents) changed id) :
    ∃ found, (dependents [id]).orDefault [] = .ok found := by
  cases hanswer : dependents [id] with
  | ok found => exact ⟨found, rfl⟩
  | error err =>
    cases err with
    | unsupported c => exact ⟨[], rfl⟩
    | failed c reason => exact absurd hanswer (h id hid c reason)

/-! ## The symbols found -/

/-- The symbols that have an entry, in the order of their entries. -/
def ids (found : List Found) : List SymbolId :=
  found.map fun f => f.entry.symbolId

/-- Filling in what was missing changes no symbol. -/
theorem ids_fill (d : Dependent) (found : List Found) :
    ids (found.map (Found.fill d)) = ids found := by
  rw [ids, List.map_map]
  refine List.map_congr_left fun f _ => ?_
  simp only [Function.comp_apply, Found.fill]
  split <;> rfl

/-- A symbol is found exactly if it has an entry. -/
theorem isFound_iff {found : List Found} : isFound found id = true ↔ id ∈ ids found := by
  simp [isFound, ids]

/-- A dependent that is met is found; it comes last if it was not found before. -/
theorem ids_meet (ancestors : List SymbolId) (distance : Nat) (found : List Found)
    (d : Dependent) :
    ids (meet ancestors distance found d) = appendNew (ids found) d.symbolId := by
  unfold meet appendNew
  by_cases h : d.symbolId ∈ ids found
  · rw [if_pos (isFound_iff.mpr h), if_pos h, ids_fill]
  · rw [if_neg fun hfound => h (isFound_iff.mp hfound), if_neg h]
    simp [ids, Found.dependent]

/-- The dependents of a symbol are found as they become nodes of the graph. -/
theorem ids_foldl_meet (ancestors : List SymbolId) (distance : Nat) {found : List Found}
    {g : DependencyGraph SymbolId} (hg : g.nodes = ids found) (ds : List Dependent) :
    ids (ds.foldl (meet ancestors distance) found) =
      ((ds.map Dependent.symbolId).foldl DependencyGraph.addNode g).nodes := by
  induction ds generalizing found g with
  | nil => exact hg.symm
  | cons d ds ih =>
    refine ih ?_
    rw [DependencyGraph.nodes_addNode, ids_meet, hg]

/-! ## The steps of the walk -/

namespace Walk

/-- One step of the walk. -/
inductive Step (dependents : List SymbolId → Answer (List Dependent)) : Walk → Walk → Prop where
  /-- The symbol was expanded before. -/
  | pass {w : Walk} {current : SymbolId} {rest : List SymbolId}
      (hpending : w.pending = current :: rest) (hold : current ∈ w.expanded) :
      Step dependents w { w with pending := rest }
  /-- The dependents of the symbol are asked for and met. -/
  | expand {w : Walk} {current : SymbolId} {rest : List SymbolId} {found : List Dependent}
      (hpending : w.pending = current :: rest) (hnew : current ∉ w.expanded)
      (hanswer : (dependents [current]).orDefault [] = .ok found) :
      Step dependents w (w.expand current found rest)

/-- Any number of steps. -/
abbrev Steps (dependents : List SymbolId → Answer (List Dependent)) : Walk → Walk → Prop :=
  Relation.ReflTransGen (Step dependents)

/-- The questions that were asked before the walk came here. -/
def asked (w : Walk) : List Question :=
  w.expanded.reverse.map fun id => .dependents [id]

section Expand

variable {w : Walk} {found : List Dependent} {rest : List SymbolId} {a b : SymbolId}

/-- Expanding a symbol adds an edge to each of its dependents. -/
theorem graph_expand (w : Walk) (current : SymbolId) (found : List Dependent)
    (rest : List SymbolId) :
    (w.expand current found rest).graph =
      (found.map Dependent.symbolId).foldl (fun g b => g.addEdge current b) w.graph := by
  rw [List.foldl_map]
  rfl

/-- The edges are those that were there and those to the dependents. -/
theorem mem_edges_expand :
    (a, b) ∈ (w.expand current found rest).graph.edges ↔
      (a, b) ∈ w.graph.edges ∨ a = current ∧ b ∈ found.map Dependent.symbolId := by
  rw [graph_expand, DependencyGraph.mem_edges_foldl_addEdge]
  refine or_congr_right ⟨?_, ?_⟩
  · rintro ⟨b', hb, heq⟩
    obtain ⟨rfl, rfl⟩ := Prod.mk.inj heq
    exact ⟨rfl, hb⟩
  · rintro ⟨rfl, hb⟩
    exact ⟨b, hb, rfl⟩

/-- The dependents become nodes. -/
theorem nodes_expand (hcurrent : current ∈ w.graph.nodes) :
    (w.expand current found rest).graph.nodes =
      ((found.map Dependent.symbolId).foldl DependencyGraph.addNode w.graph).nodes := by
  rw [graph_expand, DependencyGraph.nodes_foldl_addEdge hcurrent]

/-- The nodes are those that were there and the dependents. -/
theorem mem_nodes_expand (hcurrent : current ∈ w.graph.nodes) :
    id ∈ (w.expand current found rest).graph.nodes ↔
      id ∈ w.graph.nodes ∨ id ∈ found.map Dependent.symbolId := by
  rw [nodes_expand hcurrent, DependencyGraph.nodes_foldl_addNode, List.mem_append,
    List.mem_eraseDups, List.mem_filter, decide_eq_true_eq]
  tauto

/-- A dependent is put off unless it is expanded already. -/
theorem mem_pending_expand :
    id ∈ (w.expand current found rest).pending ↔
      (id ∈ found.map Dependent.symbolId ∧ id ∉ current :: w.expanded) ∨ id ∈ rest := by
  simp [expand]

end Expand

/-- What is known of the symbols found so far. -/
structure Explored (dependents : List SymbolId → Answer (List Dependent))
    (changed : List SymbolId) (w : Walk) : Prop where
  nodes : w.graph.nodes = ids w.found
  reach : ∀ id ∈ w.graph.nodes, Reach (dependentIds dependents) changed id
  changed : ∀ id ∈ changed, id ∈ w.graph.nodes
  nodup_expanded : w.expanded.Nodup
  /-- A symbol found is expanded or to be expanded. -/
  mem_nodes : ∀ id, id ∈ w.graph.nodes ↔ id ∈ w.expanded ∨ id ∈ w.pending
  /-- The edges lead from the expanded symbols to their dependents. -/
  mem_edges : ∀ a b, (a, b) ∈ w.graph.edges ↔ a ∈ w.expanded ∧ b ∈ dependentIds dependents a

/-- At the start the changed symbols are found, and all are to be expanded. -/
theorem explored_start (dependents : List SymbolId → Answer (List Dependent))
    (changed : List SymbolId) : Explored dependents changed (.start changed) := by
  have hnodes : (Walk.start changed).graph.nodes = changed.eraseDups := by
    simp [start, DependencyGraph.nodes_foldl_addNode, DependencyGraph.empty]
  have hmem : ∀ id, id ∈ (Walk.start changed).graph.nodes ↔ id ∈ changed := by
    intro id
    rw [hnodes, List.mem_eraseDups]
  refine ⟨?_, fun id hid => .root ((hmem id).mp hid), fun id => (hmem id).mpr, List.nodup_nil,
    fun id => ?_, fun a b => ?_⟩
  · rw [hnodes, ids, start, List.map_map]
    exact (List.map_id _).symm
  · rw [hnodes]
    simp [start]
  · simp [start, DependencyGraph.edges_foldl_addNode, DependencyGraph.empty]

/-- A step keeps what is known of the symbols found. -/
theorem Explored.step {w w' : Walk} (h : Explored dependents changed w)
    (hstep : Step dependents w w') : Explored dependents changed w' := by
  cases hstep with
  -- The symbol is not put off any more, since it is expanded already.
  | @pass current rest hpending hold =>
    refine { h with mem_nodes := fun id => ?_ }
    rw [h.mem_nodes, hpending, List.mem_cons]
    refine ⟨?_, fun hid => hid.imp_right .inr⟩
    rintro (hid | rfl | hid)
    · exact .inl hid
    · exact .inl hold
    · exact .inr hid
  | @expand current rest found hpending hnew hanswer =>
    -- What was answered are the dependents, so each of them is reached.
    have hids := dependentIds_of_orDefault hanswer
    have hcurrent : current ∈ w.graph.nodes := by
      rw [h.mem_nodes, hpending]
      exact .inr List.mem_cons_self
    refine ⟨?_, fun id hid => ?_, fun id hid => ?_, ?_, fun id => ?_, fun a b => ?_⟩
    · rw [nodes_expand hcurrent]
      exact (ids_foldl_meet _ _ h.nodes found).symm
    · rcases (mem_nodes_expand hcurrent).mp hid with hid | hid
      · exact h.reach id hid
      · exact .step (h.reach current hcurrent) (hids ▸ hid)
    · exact (mem_nodes_expand hcurrent).mpr (.inl (h.changed id hid))
    · exact List.nodup_cons.mpr ⟨hnew, h.nodup_expanded⟩
    · rw [mem_nodes_expand hcurrent, mem_pending_expand, h.mem_nodes, hpending]
      show _ ↔ id ∈ current :: w.expanded ∨ _
      simp only [List.mem_cons]
      tauto
    · rw [mem_edges_expand, h.mem_edges, ← hids]
      show _ ↔ a ∈ current :: w.expanded ∧ _
      rw [List.mem_cons]
      constructor
      · rintro (⟨ha, hb⟩ | ⟨rfl, hb⟩)
        · exact ⟨.inr ha, hb⟩
        · exact ⟨.inl rfl, hb⟩
      · rintro ⟨rfl | ha, hb⟩
        · exact .inr ⟨rfl, hb⟩
        · exact .inl ⟨ha, hb⟩

/-- So do any number of steps. -/
theorem Explored.steps {w w' : Walk} (h : Explored dependents changed w)
    (hsteps : Steps dependents w w') : Explored dependents changed w' := by
  induction hsteps with
  | refl => exact h
  | tail _ hstep ih => exact ih.step hstep

end Walk

/-- A walk that ends well takes steps until nothing is left to be expanded, and asks one question
    for each symbol that it expands. -/
theorem walk_steps (finite : FiniteReach (dependentIds dependents) changed) (w : Walk)
    (reached : Walk.Reached dependents changed w.pending) {w' : Walk}
    (h : (walk dependents finite w reached).answer = .ok w') :
    Walk.Steps dependents w w' ∧ w'.pending = [] ∧
      w'.asked = w.asked ++ (walk dependents finite w reached).questions := by
  fun_induction walk dependents finite w reached with
  | case1 w reached hpending =>
    cases h
    exact ⟨.refl, hpending, (List.append_nil _).symm⟩
  | case2 w reached current rest hpending hrest hcurrent hseen ih =>
    obtain ⟨hsteps, hend, hasked⟩ := ih h
    exact ⟨hsteps.head (.pass hpending hseen), hend, hasked⟩
  | case3 w reached current rest hpending hrest hcurrent hseen err herr => cases h
  -- The question that is asked here comes before all later ones.
  | case4 w reached current rest hpending hrest hcurrent hseen found hfound result ih =>
    obtain ⟨hsteps, hend, hasked⟩ := ih h
    refine ⟨hsteps.head (.expand hpending hseen hfound), hend, ?_⟩
    have hexpand : (w.expand current found rest).asked = w.asked ++ [.dependents [current]] := by
      simp [Walk.asked, Walk.expand]
    rw [hasked, hexpand, List.append_assoc]
    rfl

/-- A walk none of whose questions fails ends well. -/
theorem walk_isOk (finite : FiniteReach (dependentIds dependents) changed)
    (hanswers : NeverFails dependents changed) (w : Walk)
    (reached : Walk.Reached dependents changed w.pending) :
    ∃ w', (walk dependents finite w reached).answer = .ok w' := by
  fun_induction walk dependents finite w reached with
  | case1 w reached hpending => exact ⟨w, rfl⟩
  | case2 w reached current rest hpending hrest hcurrent hseen ih => exact ih
  | case3 w reached current rest hpending hrest hcurrent hseen err herr =>
    obtain ⟨found, hfound⟩ := hanswers.orDefault_ok hcurrent
    exact nomatch herr.symm.trans hfound
  | case4 w reached current rest hpending hrest hcurrent hseen found hfound result ih => exact ih

/-! ## The finished walk -/

namespace Walk

variable {w : Walk} {a b : SymbolId}

/-- The symbols found are those that can be reached: they hold the changed symbols, and the
    dependents of each of them, since all of them are expanded. -/
theorem Explored.mem_nodes_iff (h : Explored dependents changed w) (hend : w.pending = []) :
    id ∈ w.graph.nodes ↔ Reach (dependentIds dependents) changed id := by
  refine ⟨h.reach id, fun hid => hid.mem_of_closed h.changed fun a ha b hb => ?_⟩
  have hexpanded : a ∈ w.expanded := by
    have hfound := (h.mem_nodes a).mp ha
    rw [hend] at hfound
    exact hfound.resolve_right List.not_mem_nil
  exact (w.graph.mem_nodes _ ((h.mem_edges a b).mpr ⟨hexpanded, hb⟩)).2

/-- At the end all symbols found are expanded. -/
theorem Explored.expanded_perm (h : Explored dependents changed w) (hend : w.pending = []) :
    w.expanded.Perm w.graph.nodes := by
  refine (List.perm_ext_iff_of_nodup h.nodup_expanded w.graph.nodup_nodes).mpr fun id => ?_
  rw [h.mem_nodes, hend]
  simp

/-- The graph agrees with the relation on what was found. -/
theorem Explored.mem_successors_iff (h : Explored dependents changed w) (hend : w.pending = [])
    (ha : Reach (dependentIds dependents) changed a) :
    b ∈ w.graph.successors a ↔ b ∈ dependentIds dependents a := by
  have hexpanded : a ∈ w.expanded :=
    (h.expanded_perm hend).mem_iff.mpr ((h.mem_nodes_iff hend).mpr ha)
  rw [DependencyGraph.mem_successors, h.mem_edges]
  exact and_iff_right hexpanded

end Walk

/-- A cascade none of whose questions fails is read off a finished walk, and its questions are the
    questions of the walk. -/
theorem exists_walk (finite : FiniteReach (dependentIds dependents) changed)
    (hanswers : NeverFails dependents changed) :
    ∃ w, (walk dependents finite (.start changed) (start_reached dependents changed)).answer =
        .ok w ∧
      (compute dependents changed finite).answer = .ok (ofWalk changed w) ∧
      (compute dependents changed finite).questions = w.asked ∧
      w.Explored dependents changed ∧ w.pending = [] := by
  obtain ⟨w, hanswer⟩ :=
    walk_isOk finite hanswers (.start changed) (start_reached dependents changed)
  obtain ⟨hsteps, hend, hasked⟩ := walk_steps finite _ _ hanswer
  refine ⟨w, hanswer, ?_, ?_, (Walk.explored_start dependents changed).steps hsteps, hend⟩
  · simp only [compute, Asked.answer_bind, Asked.answer_pure, hanswer]
    rfl
  -- No question was asked before the walk.
  · rw [hasked]
    exact List.append_nil _

/-! ## What a cascade holds -/

/-- The cascade holds each symbol that can be reached from the changed ones once. -/
structure IsClosure (dependents : List SymbolId → Answer (List Dependent))
    (changed : List SymbolId) (c : Cascade) : Prop where
  nodup : (c.entries.map CascadeEntry.symbolId).Nodup
  mem_entries : ∀ id, id ∈ c.entries.map CascadeEntry.symbolId ↔
    Reach (dependentIds dependents) changed id
  order : c.order.Perm (c.entries.map CascadeEntry.symbolId)
  totalSymbols : c.totalSymbols = c.entries.length
  distance_le : ∀ entry ∈ c.entries, entry.distance ≤ c.maxDistance
  /-- Some entry has the greatest distance; it is zero if there is no entry. -/
  maxDistance : (∃ entry ∈ c.entries, entry.distance = c.maxDistance) ∨
    c.entries = [] ∧ c.maxDistance = 0

/-- What a finished walk found is the closure. -/
theorem isClosure_ofWalk {w : Walk} (h : w.Explored dependents changed) (hend : w.pending = []) :
    IsClosure dependents changed (ofWalk changed w) := by
  have hids : (ofWalk changed w).entries.map CascadeEntry.symbolId = w.graph.nodes := by
    rw [h.nodes, ids, ofWalk, List.map_map]
    rfl
  have hmax : (ofWalk changed w).maxDistance =
      ((ofWalk changed w).entries.map CascadeEntry.distance).max?.getD 0 := by
    show List.foldl max 0 _ = _
    rw [List.foldl_max, Nat.zero_max]
    rfl
  -- The distances have a greatest one, or there are none.
  have hdistance : (∀ entry ∈ (ofWalk changed w).entries,
        entry.distance ≤ (ofWalk changed w).maxDistance) ∧
      ((∃ entry ∈ (ofWalk changed w).entries, entry.distance = (ofWalk changed w).maxDistance) ∨
        (ofWalk changed w).entries = [] ∧ (ofWalk changed w).maxDistance = 0) := by
    rw [hmax]
    cases hgreatest : ((ofWalk changed w).entries.map CascadeEntry.distance).max? with
    | none =>
      have hnil := List.map_eq_nil_iff.mp (List.max?_eq_none_iff.mp hgreatest)
      rw [hnil]
      exact ⟨by simp, .inr ⟨rfl, rfl⟩⟩
    | some m =>
      obtain ⟨hmem, hle⟩ := List.max?_eq_some_iff.mp hgreatest
      exact ⟨fun entry hentry => hle _ (List.mem_map_of_mem hentry), .inl (List.mem_map.mp hmem)⟩
  exact {
    nodup := hids ▸ w.graph.nodup_nodes
    mem_entries := fun id => by rw [hids, h.mem_nodes_iff hend]
    order := hids ▸ w.graph.sequence_perm
    totalSymbols := rfl
    distance_le := hdistance.1
    maxDistance := hdistance.2 }

/-- A cascade that ends well holds what can be reached from the changed symbols. -/
theorem isClosure_of_cascade {e : Engine} {c : Cascade}
    (h : (e.cascade changed).result = .ok c) :
    IsClosure e.analyzer.dependents changed c := by
  have hresult : (e.cascade changed).result =
      ((walk _ (e.analyzer.finite changed) (.start changed)
        (start_reached _ _)).answer.map (ofWalk changed)).mapError .collaborator := rfl
  rw [hresult, Except.mapError_eq_ok, Except.map_eq_ok] at h
  obtain ⟨w, hwalk, rfl⟩ := h
  obtain ⟨hsteps, hend, -⟩ := walk_steps _ _ _ hwalk
  exact isClosure_ofWalk ((Walk.explored_start _ _).steps hsteps) hend

/-- An engine computes the cascade from what its analyzer answers. -/
theorem run_engine_cascade (finite : FiniteReach (dependentIds dependents) changed) {e : Engine}
    (he : e.analyzer.dependents = dependents) :
    (e.cascade changed).run =
      ⟨(compute dependents changed finite).answer.mapError .collaborator,
        (compute dependents changed finite).questions⟩ := by
  subst he
  exact Asked.ext rfl (List.append_nil _)

/-- A cascade none of whose questions fails exists and holds what can be reached from the changed
    symbols; it asks for the dependents of each of these symbols once, and nothing else. It is what
    every engine gives whose analyzer knows these dependents. -/
theorem compute_closure (finite : FiniteReach (dependentIds dependents) changed)
    (hanswers : NeverFails dependents changed) :
    ∃ c, (compute dependents changed finite).answer = .ok c ∧ IsClosure dependents changed c ∧
      (compute dependents changed finite).questions.Perm
        (c.entries.map fun entry => .dependents [entry.symbolId]) ∧
      ∀ e : Engine, e.analyzer.dependents = dependents →
        (e.cascade changed).run = ⟨.ok c, (compute dependents changed finite).questions⟩ := by
  obtain ⟨w, -, hanswer, hquestions, hexplored, hend⟩ := exists_walk finite hanswers
  refine ⟨ofWalk changed w, hanswer, isClosure_ofWalk hexplored hend, ?_, fun e he => ?_⟩
  -- One question was asked for each expanded symbol, and these are the symbols found.
  · have hentries : ((ofWalk changed w).entries.map
          fun entry => Question.dependents [entry.symbolId]) =
        w.graph.nodes.map fun id => .dependents [id] := by
      rw [hexplored.nodes, ids, ofWalk, List.map_map, List.map_map]
      rfl
    rw [hquestions, hentries]
    exact ((List.reverse_perm _).trans (hexplored.expanded_perm hend)).map _
  · rw [run_engine_cascade finite he, hanswer]
    rfl

/-! ## Dependencies in a table -/

/-- A table that is not declared as failing never fails. -/
theorem neverFails_table (t : AnalyzerTables) (h : .dependents ∉ t.failing)
    (changed : List SymbolId) : NeverFails t.dependentsAnswer changed := by
  intro id _ c reason
  unfold AnalyzerTables.dependentsAnswer AnalyzerTables.answer
  rw [if_neg h]
  cases t.dependents with
  | some rows => exact nofun
  | none => exact nofun

/-- A script. -/
def script (name : String) : SymbolId :=
  ⟨["p", "script"], name⟩

/-- Scripts, each followed by one that depends on it. -/
def scripts (rows : List (String × String)) : AnalyzerTables where
  dependents := some (rows.map fun row => (script row.1, ⟨script row.2, none⟩))

/-- The dependents of a script are those that stand in a row with it. -/
theorem mem_dependentIds_scripts {rows : List (String × String)} {a b : SymbolId} :
    b ∈ dependentIds (scripts rows).dependentsAnswer a ↔
      ∃ row ∈ rows, script row.1 = a ∧ script row.2 = b := by
  simp [dependentIds, AnalyzerTables.dependentsAnswer, AnalyzerTables.answer, scripts,
    AnalyzerTables.dependentsOf, and_assoc]

/-- A script on which others depend that depend on each other and on themselves. -/
def tangle : AnalyzerTables :=
  scripts [("s", "a"), ("a", "b"), ("a", "c"), ("b", "a"), ("c", "b"), ("c", "c")]

/-- The cascade of the tangle, from a symbol that is given twice. -/
theorem compute_closure_tangle :
    ∃ c, (({ analyzer := tangle.analyzer } : Engine).cascade [script "s", script "s"]).run.answer =
        .ok c ∧
      IsClosure tangle.dependentsAnswer [script "s", script "s"] c ∧
      c.order = [script "s", script "a", script "b", script "c"] := by
  obtain ⟨c, hanswer, hclosure, -, hengine⟩ :=
    compute_closure (tangle.finite _) (neverFails_table tangle (by decide) [script "s", script "s"])
  have horder : ((compute tangle.dependentsAnswer [script "s", script "s"]
      (tangle.finite _)).answer.map Cascade.order).toOption =
        some [script "s", script "a", script "b", script "c"] := by cbv
  rw [hanswer] at horder
  exact ⟨c, congrArg Asked.answer (hengine { analyzer := tangle.analyzer } rfl), hclosure,
    Option.some.inj horder⟩

end Cascade
end HotRename
