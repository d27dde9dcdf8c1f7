import HotRename.Proofs.Rename.Cascade

/-!
# Distances and reasons of a cascade

An entry of a cascade says how far its symbol is from the change and names the last symbols on the
way there. Both are noted when the symbol is met, and only the file of an entry is filled in later.
So the way to a symbol is the way to the symbol that was expanded when it was met, and one step
more: the names that are kept are the first of a chain that leads all the way back to a change.
Main statements:

* `notes_foldl_meet`   meeting dependents adds notes and changes none
* `Trail.dependent`    the way to a dependent that is met for the first time
* `Traced.step`        a step of the walk keeps that every note has such a way
* `compute_distances`  what the distances and reasons of a cascade say
-/

namespace HotRename

namespace Cascade

variable {dependents : List SymbolId → Answer (List Dependent)} {changed : List SymbolId}
  {id current : SymbolId}

/-! ## What is noted of a symbol -/

/-- What is noted of a symbol when it is found. Its file may become known later. -/
def Found.note (f : Found) : Found :=
  { f with entry := { f.entry with filePath := none } }

/-- A note is about the same symbol. -/
@[simp] theorem Found.note_symbolId (f : Found) : f.note.entry.symbolId = f.entry.symbolId := rfl

/-- A file that becomes known does not change the note. -/
@[simp] theorem Found.note_fill (d : Dependent) (f : Found) : (f.fill d).note = f.note := by
  unfold fill
  split <;> rfl

/-- The notes on all symbols found, in the order in which they were found. -/
def notes (found : List Found) : List Found :=
  found.map Found.note

/-- A dependent that is met adds a note if it was not found before. -/
theorem notes_meet (ancestors : List SymbolId) (distance : Nat) (found : List Found)
    (d : Dependent) :
    notes (meet ancestors distance found d) =
      if d.symbolId ∈ ids found then notes found
      else notes found ++ [(Found.dependent ancestors distance d).note] := by
  unfold meet
  by_cases h : d.symbolId ∈ ids found
  · rw [if_pos (isFound_iff.mpr h), if_pos h]
    simp [notes]
  · rw [if_neg fun hfound => h (isFound_iff.mp hfound), if_neg h]
    simp [notes]

/-- Meeting dependents adds notes on those that were not found before, and changes none. -/
theorem notes_foldl_meet (ancestors : List SymbolId) (distance : Nat) (found : List Found)
    (ds : List Dependent) :
    ∃ new, notes (ds.foldl (meet ancestors distance) found) = notes found ++ new ∧
      ∀ f ∈ new, ∃ d ∈ ds, d.symbolId ∉ ids found ∧
        f = (Found.dependent ancestors distance d).note := by
  induction ds generalizing found with
  | nil => exact ⟨[], by simp, by simp⟩
  | cons d ds ih =>
    obtain ⟨new, hnotes, hnew⟩ := ih (meet ancestors distance found d)
    rw [notes_meet] at hnotes
    rw [List.foldl_cons, hnotes]
    -- What is found later was not found before, either.
    have hids : ids found ⊆ ids (meet ancestors distance found d) := by
      rw [ids_meet, appendNew]
      split
      · exact List.Subset.refl _
      · exact List.subset_append_left _ _
    have hlater : ∀ f ∈ new, ∃ d' ∈ d :: ds, d'.symbolId ∉ ids found ∧
        f = (Found.dependent ancestors distance d').note := by
      intro f hf
      obtain ⟨d', hd', hunknown, hf⟩ := hnew f hf
      exact ⟨d', List.mem_cons_of_mem _ hd', fun hknown => hunknown (hids hknown), hf⟩
    by_cases h : d.symbolId ∈ ids found
    · rw [if_pos h]
      exact ⟨new, rfl, hlater⟩
    · rw [if_neg h]
      refine ⟨(Found.dependent ancestors distance d).note :: new, by simp, ?_⟩
      intro f hf
      rcases List.mem_cons.mp hf with rfl | hf
      · exact ⟨d, List.mem_cons_self, h, rfl⟩
      · exact hlater f hf

/-! ## Ways back to a change -/

/-- The chain leads from the symbol back to a change: the symbol is a dependent of the first symbol
    of the chain, each of them is a dependent of the next, and the last is changed. A changed symbol
    needs no chain. -/
structure LeadsBack (dependents : List SymbolId → Answer (List Dependent))
    (changed : List SymbolId) (id : SymbolId) (chain : List SymbolId) : Prop where
  steps : (id :: chain).IsChain fun b a => b ∈ dependentIds dependents a
  last : (id :: chain).getLast (List.cons_ne_nil _ _) ∈ changed

/-- A chain from a symbol is one step longer from its dependent. -/
theorem LeadsBack.cons {chain : List SymbolId} (h : LeadsBack dependents changed current chain)
    (hid : id ∈ dependentIds dependents current) :
    LeadsBack dependents changed id (current :: chain) where
  steps := .cons_cons hid h.steps
  last := by
    rw [List.getLast_cons (List.cons_ne_nil _ _)]
    exact h.last

/-- Where a chain leads back to a change, a shortest one does. -/
theorem LeadsBack.exists_shortest {chain : List SymbolId}
    (h : LeadsBack dependents changed id chain) :
    ∃ shortest, LeadsBack dependents changed id shortest ∧
      shortest.length ≤ chain.length ∧
      ∀ other, LeadsBack dependents changed id other → shortest.length ≤ other.length := by
  classical
  -- The lengths of the chains have a least one.
  have hsome : ∃ n, ∃ c, LeadsBack dependents changed id c ∧ c.length = n := ⟨_, chain, h, rfl⟩
  obtain ⟨shortest, hshortest, hlen⟩ := Nat.find_spec hsome
  have hmin : ∀ other, LeadsBack dependents changed id other →
      shortest.length ≤ other.length := by
    intro other hother
    rw [hlen]
    exact Nat.find_min' hsome ⟨other, hother, rfl⟩
  exact ⟨shortest, hshortest, hmin chain h, hmin⟩

/-- The chain is the way on which the symbol was found, as far as the notes can tell. -/
structure Trail (dependents : List SymbolId → Answer (List Dependent)) (changed : List SymbolId)
    (known : List Found) (f : Found) (chain : List SymbolId) : Prop where
  leadsBack : LeadsBack dependents changed f.entry.symbolId chain
  eq_nil_iff : chain = [] ↔ f.entry.symbolId ∈ changed
  distance : f.entry.distance = chain.length
  ancestors : f.ancestors = chain.take reasonSteps
  reason : f.entry.reason =
    if chain = [] then "changed directly"
    else Cascade.reason (chain.take reasonSteps) chain.length
  /-- The symbols of the chain are known, each with the length of the rest as its distance. -/
  known : ∀ i a, chain[i]? = some a →
    ∃ g ∈ known, g.entry.symbolId = a ∧ g.entry.distance = chain.length - (i + 1)

/-- A way is still known when more symbols are found. -/
theorem Trail.mono {known known' : List Found} {f : Found} {chain : List SymbolId}
    (h : Trail dependents changed known f chain) (hsub : known ⊆ known') :
    Trail dependents changed known' f chain := by
  refine { h with known := fun i a ha => ?_ }
  obtain ⟨g, hg, hid, hdistance⟩ := h.known i a ha
  exact ⟨g, hsub hg, hid, hdistance⟩

/-- A changed symbol is where it is without any step. -/
theorem Trail.direct (known : List Found) (hid : id ∈ changed) :
    Trail dependents changed known (Found.changed id).note [] where
  leadsBack := ⟨.singleton _, hid⟩
  eq_nil_iff := iff_of_true rfl hid
  distance := rfl
  ancestors := rfl
  reason := rfl
  known := by simp

/-- The way to a dependent that is met for the first time is the way to the symbol that is expanded,
    and one step more. -/
theorem Trail.dependent {known : List Found} {parent : Found} {chain : List SymbolId}
    (h : Trail dependents changed known parent chain) (hparent : parent ∈ known) {d : Dependent}
    (hd : d.symbolId ∈ dependentIds dependents parent.entry.symbolId)
    (hnew : d.symbolId ∉ changed) :
    Trail dependents changed known
      (Found.dependent (parent.entry.symbolId :: parent.ancestors.take (reasonSteps - 1))
        (parent.entry.distance + 1) d).note
      (parent.entry.symbolId :: chain) := by
  -- The names that are kept are the first ones of the longer way.
  have hancestors : parent.entry.symbolId :: parent.ancestors.take (reasonSteps - 1) =
      (parent.entry.symbolId :: chain).take reasonSteps := by
    rw [h.ancestors, List.take_take]
    rfl
  rw [hancestors, h.distance]
  refine {
    leadsBack := h.leadsBack.cons hd
    eq_nil_iff := iff_of_false (List.cons_ne_nil _ _) hnew
    distance := rfl
    ancestors := rfl
    reason := (if_neg (List.cons_ne_nil _ _)).symm
    known := fun i a ha => ?_ }
  cases i with
  | zero =>
    rw [List.getElem?_cons_zero, Option.some.injEq] at ha
    exact ⟨parent, hparent, ha, by simp [h.distance]⟩
  | succ i =>
    rw [List.getElem?_cons_succ] at ha
    obtain ⟨g, hg, hid, hdistance⟩ := h.known i a ha
    exact ⟨g, hg, hid, by simp only [hdistance, List.length_cons]; omega⟩

/-! ## The walk -/

namespace Walk

/-- Every note has a way on which its symbol was found. -/
def Traced (dependents : List SymbolId → Answer (List Dependent)) (changed : List SymbolId)
    (w : Walk) : Prop :=
  ∀ f ∈ notes w.found, ∃ chain, Trail dependents changed (notes w.found) f chain

/-- At the start there are the changed symbols, each without a way to go. -/
theorem traced_start (dependents : List SymbolId → Answer (List Dependent))
    (changed : List SymbolId) : Traced dependents changed (.start changed) := by
  intro f hf
  simp only [start, notes, List.mem_map] at hf
  obtain ⟨_, ⟨id, hid, rfl⟩, rfl⟩ := hf
  exact ⟨[], Trail.direct _ (List.mem_eraseDups.mp hid)⟩

/-- A symbol that is to be expanded was found, and the notes on it are those that its dependents go
    on from. -/
theorem exists_parent {w : Walk} {found : List Dependent} {rest : List SymbolId}
    (hcurrent : current ∈ ids w.found) :
    ∃ parent ∈ notes w.found, parent.entry.symbolId = current ∧
      (w.expand current found rest).found = found.foldl
        (meet (current :: parent.ancestors.take (reasonSteps - 1)) (parent.entry.distance + 1))
        w.found := by
  obtain ⟨f, hf, rfl⟩ := List.mem_map.mp hcurrent
  -- The entry that the walk looks up is there, since the symbol was found.
  obtain ⟨p, hp⟩ : ∃ p, w.found.find? (fun g => g.entry.symbolId = f.entry.symbolId) = some p := by
    rw [← Option.isSome_iff_exists, List.find?_isSome]
    exact ⟨f, hf, by simp⟩
  refine ⟨p.note, List.mem_map_of_mem (List.mem_of_find?_eq_some hp), ?_, ?_⟩
  · simpa using List.find?_some hp
  · simp only [expand, hp]
    rfl

/-- A step keeps that every note has a way. -/
theorem Traced.step {w w' : Walk} (h : Traced dependents changed w)
    (hexplored : Explored dependents changed w) (hstep : Step dependents w w') :
    Traced dependents changed w' := by
  cases hstep with
  | pass hpending hold => exact h
  | @expand current rest found hpending hnew hanswer =>
    have hcurrent : current ∈ ids w.found := by
      rw [← hexplored.nodes, hexplored.mem_nodes, hpending]
      exact .inr List.mem_cons_self
    obtain ⟨parent, hparent, rfl, hfound⟩ := @exists_parent _ w found rest hcurrent
    obtain ⟨new, hnotes, hnew⟩ := notes_foldl_meet
      (parent.entry.symbolId :: parent.ancestors.take (reasonSteps - 1))
      (parent.entry.distance + 1) w.found found
    -- No note is lost, so the ways that were known stay known.
    have hsub : notes w.found ⊆ notes w.found ++ new := List.subset_append_left _ _
    intro f hf
    rw [hfound, hnotes] at hf ⊢
    rcases List.mem_append.mp hf with hf | hf
    · obtain ⟨chain, htrail⟩ := h f hf
      exact ⟨chain, htrail.mono hsub⟩
    · -- A dependent that is met for the first time is no changed symbol: those are found already.
      obtain ⟨d, hd, hunknown, rfl⟩ := hnew f hf
      obtain ⟨chain, htrail⟩ := h parent hparent
      have hdependent : d.symbolId ∈ dependentIds dependents parent.entry.symbolId := by
        rw [dependentIds_of_orDefault hanswer]
        exact List.mem_map_of_mem hd
      have hunchanged : d.symbolId ∉ changed := by
        intro hchanged
        apply hunknown
        rw [← hexplored.nodes]
        exact hexplored.changed _ hchanged
      exact ⟨_, (htrail.dependent hparent hdependent hunchanged).mono hsub⟩

/-- So do any number of steps. -/
theorem Traced.steps {w w' : Walk} (h : Traced dependents changed w)
    (hexplored : Explored dependents changed w) (hsteps : Steps dependents w w') :
    Traced dependents changed w' := by
  induction hsteps with
  | refl => exact h
  | tail hsteps hstep ih => exact ih.step (hexplored.steps hsteps) hstep

end Walk

/-! ## Entries -/

/-- In words: the symbol depends on the first of the chain, which depends on the second, and so on
    for at most three symbols. Where there are more, only their number is said. -/
def reasonText (chain : List SymbolId) : String :=
  ", which ".intercalate ((chain.take (min chain.length 3)).map fun a => s!"depends on {a.text}") ++
    if 3 < chain.length then s!", which ... ({chain.length} hops from the change)" else ""

/-- The reason that is made from the first three symbols is that of the whole chain. -/
theorem reason_take (chain : List SymbolId) :
    reason (chain.take reasonSteps) chain.length = reasonText chain := by
  have htake : chain.take (min chain.length 3) = chain.take reasonSteps := by
    rw [List.take_eq_take_iff, reasonSteps]
    omega
  have hlong : (chain.take reasonSteps).length < chain.length ↔ 3 < chain.length := by
    rw [List.length_take]
    show min 3 chain.length < chain.length ↔ _
    omega
  simp only [reason, reasonText, htake, hlong]
  split
  · simp only [String.append_assoc]
    rfl
  · rw [String.append_empty]

/-- The chain is the way on which the symbol of an entry was found. -/
structure FoundThrough (dependents : List SymbolId → Answer (List Dependent))
    (changed : List SymbolId) (c : Cascade) (entry : CascadeEntry) (chain : List SymbolId) :
    Prop where
  leadsBack : LeadsBack dependents changed entry.symbolId chain
  length : chain.length = entry.distance
  reached : ∀ a ∈ chain, Reach (dependentIds dependents) changed a
  /-- The distance goes down by one with each symbol of the chain. -/
  distances : ∀ i a, chain[i]? = some a →
    (c.entry? a).map CascadeEntry.distance = some (entry.distance - (i + 1))
  reason : chain ≠ [] → entry.reason = reasonText chain

/-- Every entry is found under its symbol, which no other entry has. -/
theorem entry?_of_mem {c : Cascade} (hnodup : (c.entries.map CascadeEntry.symbolId).Nodup)
    {entry : CascadeEntry} (h : entry ∈ c.entries) : c.entry? entry.symbolId = some entry := by
  obtain ⟨other, hother⟩ : ∃ other, c.entry? entry.symbolId = some other := by
    rw [← Option.isSome_iff_exists, entry?, List.find?_isSome]
    exact ⟨entry, h, by simp⟩
  have hid : other.symbolId = entry.symbolId := by simpa using List.find?_some hother
  rw [hother, List.inj_on_of_nodup_map hnodup (List.mem_of_find?_eq_some hother) h hid]

/-- In a cascade that is read off a finished walk, every entry has a way on which its symbol was
    found. -/
theorem foundThrough_ofWalk {w : Walk} (hexplored : w.Explored dependents changed)
    (hend : w.pending = []) (htraced : w.Traced dependents changed) {entry : CascadeEntry}
    (hentry : entry ∈ (ofWalk changed w).entries) :
    (entry.distance = 0 ↔ entry.symbolId ∈ changed) ∧
      (entry.symbolId ∈ changed → entry.reason = "changed directly") ∧
      ∃ chain, FoundThrough dependents changed (ofWalk changed w) entry chain := by
  have hclosure := isClosure_ofWalk hexplored hend
  obtain ⟨f, hf, rfl⟩ := List.mem_map.mp hentry
  obtain ⟨chain, htrail⟩ := htraced f.note (List.mem_map_of_mem hf)
  have hdistance : f.entry.distance = chain.length := htrail.distance
  have hdirect : chain = [] ↔ f.entry.symbolId ∈ changed := htrail.eq_nil_iff
  have hreason : f.entry.reason = if chain = [] then "changed directly"
      else reason (chain.take reasonSteps) chain.length := htrail.reason
  -- What the notes know of the symbols of the chain stands in their entries.
  have hknown : ∀ i a, chain[i]? = some a → ∃ other ∈ (ofWalk changed w).entries,
      other.symbolId = a ∧ other.distance = f.entry.distance - (i + 1) := by
    intro i a ha
    obtain ⟨_, hnote, hid, hlen⟩ := htrail.known i a ha
    obtain ⟨g, hg, rfl⟩ := List.mem_map.mp hnote
    exact ⟨g.entry, List.mem_map_of_mem hg, hid, by rw [hdistance]; exact hlen⟩
  refine ⟨?_, fun hchanged => ?_, chain, {
    leadsBack := htrail.leadsBack
    length := hdistance.symm
    reached := fun a ha => ?_
    distances := fun i a ha => ?_
    reason := fun hne => ?_ }⟩
  · rw [hdistance, List.length_eq_zero_iff, hdirect]
  · rw [hreason, if_pos (hdirect.mpr hchanged)]
  · obtain ⟨i, hi⟩ := List.getElem?_of_mem ha
    obtain ⟨other, hother, rfl, -⟩ := hknown i a hi
    exact (hclosure.mem_entries _).mp (List.mem_map_of_mem hother)
  · obtain ⟨other, hother, rfl, hlen⟩ := hknown i a ha
    rw [entry?_of_mem hclosure.nodup hother, Option.map_some, hlen]
  · rw [hreason, if_neg hne, reason_take]

/-- A cascade none of whose questions fails exists, and its distances and reasons are true. An entry
    has distance zero exactly if its symbol is changed. Every entry was found through a chain of
    symbols of the cascade that leads back to a change, on which the distance goes down to zero, and
    its reason names the first of them. So the distance is the length of a way back, and no less
    than that of a shortest one. It is what every engine gives whose analyzer knows these
    dependents. -/
theorem compute_distances (finite : FiniteReach (dependentIds dependents) changed)
    (hanswers : NeverFails dependents changed) :
    ∃ c, (compute dependents changed finite).answer = .ok c ∧
      (∀ entry ∈ c.entries,
        (entry.distance = 0 ↔ entry.symbolId ∈ changed) ∧
        (entry.symbolId ∈ changed → entry.reason = "changed directly") ∧
        (∃ chain, FoundThrough dependents changed c entry chain) ∧
        ∃ shortest, LeadsBack dependents changed entry.symbolId shortest ∧
          shortest.length ≤ entry.distance ∧
          ∀ other, LeadsBack dependents changed entry.symbolId other →
            shortest.length ≤ other.length) ∧
      ∀ e : Engine, e.analyzer.dependents = dependents → (e.cascade changed).result = .ok c := by
  obtain ⟨w, hwalk, hanswer, -, hexplored, hend⟩ := exists_walk finite hanswers
  obtain ⟨hsteps, -, -⟩ := walk_steps finite _ _ hwalk
  -- What holds at the start and is kept by each step holds at the end.
  have htraced := (Walk.traced_start dependents changed).steps
    (Walk.explored_start dependents changed) hsteps
  refine ⟨ofWalk changed w, hanswer, fun entry hentry => ?_, fun e he => ?_⟩
  · obtain ⟨hzero, hreason, chain, hfound⟩ := foundThrough_ofWalk hexplored hend htraced hentry
    refine ⟨hzero, hreason, ⟨chain, hfound⟩, ?_⟩
    rw [← hfound.length]
    exact hfound.leadsBack.exists_shortest
  · rw [← Inquiry.run_answer, run_engine_cascade finite he, hanswer]
    rfl

/-- A script with two ways to the last of the others. The walk takes the longer one. -/
def ladder : AnalyzerTables :=
  scripts [("s", "a"), ("s", "x"), ("a", "b"), ("b", "c"), ("c", "d"), ("x", "d")]

/-- The way that was found is longer than a shortest one, of two steps. -/
theorem compute_distances_ladder :
    ∃ c, (compute ladder.dependentsAnswer [script "s"] (ladder.finite _)).answer = .ok c ∧
      ∃ entry ∈ c.entries, entry.symbolId = script "d" ∧ entry.distance = 4 ∧
        entry.reason = "depends on p/script/c, which depends on p/script/b, " ++
          "which depends on p/script/a, which ... (4 hops from the change)" ∧
        ∃ chain, FoundThrough ladder.dependentsAnswer [script "s"] c entry chain := by
  obtain ⟨c, hanswer, hentries, -⟩ :=
    compute_distances (ladder.finite _) (neverFails_table ladder (by decide) [script "s"])
  have hlast : ((compute ladder.dependentsAnswer [script "s"]
      (ladder.finite _)).answer.map (fun c => c.entries.getLast?)).toOption =
        some (some {
          symbolId := script "d", distance := 4, filePath := none,
          reason := "depends on p/script/c, which depends on p/script/b, " ++
            "which depends on p/script/a, which ... (4 hops from the change)" }) := by cbv
  rw [hanswer] at hlast
  have hmem := List.mem_of_getLast? (Option.some.inj hlast)
  exact ⟨c, hanswer, _, hmem, rfl, rfl, rfl, (hentries _ hmem).2.2.1⟩

end Cascade
end HotRename
