import HotRename.Proofs.Rename.Cascade

/-!
# Files of a cascade

An entry of a cascade names the file that defines its symbol as soon as a dependency that is met
says it. The entry may have been there before: a file that is known stays, and one that is not is
filled in by the next dependency that knows it. So an entry has the file of the first dependency on
the way of the walk that leads to its symbol and carries a file. Main statements:

* `Filled.meet`        meeting a dependent keeps that every entry has the first file met
* `Walk.filled_steps`  the steps of a walk keep it
* `compute_files`      the files of a cascade
-/

namespace HotRename

namespace Cascade

variable {dependents : List SymbolId → Answer (List Dependent)} {changed : List SymbolId}
  {id current : SymbolId}

/-! ## The first file -/

/-- The dependents that are reported for a symbol, in the order of the answer. -/
def reported (dependents : List SymbolId → Answer (List Dependent)) (id : SymbolId) :
    List Dependent :=
  ((dependents [id]).orDefault []).toOption.getD []

/-- The file is that of the first dependency that leads to the symbol and carries one. -/
def IsFirstFile (edges : List Dependent) (id : SymbolId) (file : Path) : Prop :=
  ∃ before edge after, edges = before ++ edge :: after ∧
    edge.symbolId = id ∧ edge.filePath = some file ∧
    ∀ earlier ∈ before, earlier.symbolId = id → earlier.filePath = none

/-- The file that a dependency carries for the symbol. -/
def fileFor (id : SymbolId) (edge : Dependent) : Option Path :=
  if edge.symbolId = id then edge.filePath else none

/-- A dependency carries a file for the symbol that it leads to. -/
theorem fileFor_eq_some_iff {edge : Dependent} {file : Path} :
    fileFor id edge = some file ↔ edge.symbolId = id ∧ edge.filePath = some file := by
  simp [fileFor]

/-- It carries none for another symbol, or if it names no file. -/
theorem fileFor_eq_none_iff {edge : Dependent} :
    fileFor id edge = none ↔ (edge.symbolId = id → edge.filePath = none) := by
  simp [fileFor]

/-- The first file that one of the dependencies carries for the symbol. -/
def firstFile? (edges : List Dependent) (id : SymbolId) : Option Path :=
  edges.findSome? (fileFor id)

/-- The search finds the first file. -/
theorem firstFile?_eq_some_iff {edges : List Dependent} {file : Path} :
    firstFile? edges id = some file ↔ IsFirstFile edges id file := by
  simp only [firstFile?, List.findSome?_eq_some_iff, fileFor_eq_some_iff, fileFor_eq_none_iff,
    IsFirstFile, and_assoc]

/-- It finds one exactly if a dependency carries one. -/
theorem isSome_firstFile?_iff {edges : List Dependent} :
    (firstFile? edges id).isSome = true ↔
      ∃ edge ∈ edges, edge.symbolId = id ∧ edge.filePath.isSome = true := by
  simp only [firstFile?, List.findSome?_isSome_iff]
  refine exists_congr fun edge => and_congr_right fun _ => ?_
  simp only [Option.isSome_iff_exists, fileFor_eq_some_iff, exists_and_left]

/-- One more dependency counts only if no file was known before. -/
theorem firstFile?_concat (edges : List Dependent) (edge : Dependent) (id : SymbolId) :
    firstFile? (edges ++ [edge]) id = (firstFile? edges id).or (fileFor id edge) := by
  rw [firstFile?, List.findSome?_append, List.findSome?_singleton]
  rfl

/-! ## Entries that are filled in -/

/-- A file that becomes known does not change the symbol. -/
theorem Found.fill_symbolId (d : Dependent) (f : Found) :
    (f.fill d).entry.symbolId = f.entry.symbolId := by
  unfold fill
  split <;> rfl

/-- A file that is known stays, and another one is taken over. -/
theorem Found.fill_filePath (d : Dependent) (f : Found) :
    (f.fill d).entry.filePath = f.entry.filePath.or (fileFor f.entry.symbolId d) := by
  unfold fill fileFor
  by_cases hid : f.entry.symbolId = d.symbolId
  · cases hfile : f.entry.filePath <;> simp [hid, hfile]
  · simp [hid, Ne.symm hid]

/-- Every entry has the first file that the dependencies carry for its symbol, and they lead to
    symbols with an entry. -/
structure Filled (edges : List Dependent) (found : List Found) : Prop where
  file : ∀ f ∈ found, f.entry.filePath = firstFile? edges f.entry.symbolId
  isFound : ∀ edge ∈ edges, edge.symbolId ∈ ids found

/-- Meeting a dependent keeps that every entry has the first file met. -/
theorem Filled.meet {edges : List Dependent} {found : List Found} (h : Filled edges found)
    (ancestors : List SymbolId) (distance : Nat) (d : Dependent) :
    Filled (edges ++ [d]) (meet ancestors distance found d) where
  file f hf := by
    rw [firstFile?_concat]
    unfold Cascade.meet at hf
    split at hf
    · obtain ⟨old, hold, rfl⟩ := List.mem_map.mp hf
      rw [Found.fill_filePath, Found.fill_symbolId, h.file old hold]
    · rename_i hnew
      rw [isFound_iff] at hnew
      rcases List.mem_append.mp hf with hf | hf
      -- The new dependency does not lead to a symbol that was found before.
      · have hother : d.symbolId ≠ f.entry.symbolId := by
          intro hsame
          exact hnew (hsame ▸ List.mem_map_of_mem hf)
        rw [h.file f hf, fileFor, if_neg hother, Option.or_none]
      · -- No dependency has led to the symbol before.
        have hnone : firstFile? edges d.symbolId = none := by
          refine List.findSome?_eq_none_iff.mpr fun edge hedge => if_neg fun hsame => ?_
          exact hnew (hsame ▸ h.isFound edge hedge)
        rw [List.mem_singleton.mp hf]
        simp [Found.dependent, hnone, fileFor]
  isFound edge hedge := by
    rw [ids_meet, appendNew]
    have hmem : edge.symbolId ∈ ids found ∨ edge.symbolId = d.symbolId := by
      rcases List.mem_append.mp hedge with hedge | hedge
      · exact .inl (h.isFound edge hedge)
      · exact .inr (by rw [List.mem_singleton.mp hedge])
    split
    · rename_i hold
      exact hmem.elim id fun hsame => hsame ▸ hold
    · simpa using hmem

/-- So does meeting several. -/
theorem Filled.foldl_meet {edges : List Dependent} {found : List Found} (h : Filled edges found)
    (ancestors : List SymbolId) (distance : Nat) (ds : List Dependent) :
    Filled (edges ++ ds) (ds.foldl (Cascade.meet ancestors distance) found) := by
  induction ds generalizing edges found with
  | nil => simpa using h
  | cons d ds ih =>
    have hrest := ih (h.meet ancestors distance d)
    rwa [List.append_assoc] at hrest

/-! ## The walk -/

namespace Walk

/-- The dependencies that the walk has met, in the order in which it met them. -/
def met (dependents : List SymbolId → Answer (List Dependent)) (w : Walk) : List Dependent :=
  w.expanded.reverse.flatMap (reported dependents)

/-- At the start no file is known, and no dependency was met. -/
theorem filled_start (dependents : List SymbolId → Answer (List Dependent))
    (changed : List SymbolId) :
    Filled ((Walk.start changed).met dependents) (Walk.start changed).found where
  file f hf := by
    obtain ⟨id, -, rfl⟩ := List.mem_map.mp hf
    rfl
  isFound := nofun

/-- A step keeps that every entry has the first file met. -/
theorem filled_step {w w' : Walk} (h : Filled (w.met dependents) w.found)
    (hstep : Step dependents w w') : Filled (w'.met dependents) w'.found := by
  cases hstep with
  | pass => exact h
  | @expand current rest found hpending hnew hanswer =>
    have hreported : reported dependents current = found := by
      rw [reported, hanswer]
      rfl
    have hmet : (w.expand current found rest).met dependents = w.met dependents ++ found := by
      simp [met, expand, hreported]
    rw [hmet]
    exact h.foldl_meet _ _ found

/-- So do any number of steps. -/
theorem filled_steps {w w' : Walk} (h : Filled (w.met dependents) w.found)
    (hsteps : Steps dependents w w') : Filled (w'.met dependents) w'.found := by
  induction hsteps with
  | refl => exact h
  | tail _ hstep ih => exact filled_step ih hstep

end Walk

/-! ## Files of entries -/

/-- A cascade none of whose questions fails exists and has an entry for each symbol that can be
    reached. An entry names a file exactly if a reported dependency of a reached symbol leads to the
    symbol of the entry and carries a file. It is then the file of the first of them, in the order
    in which the symbols were asked about and their dependents reported. The cascade is what every
    engine gives whose analyzer knows these dependents. -/
theorem compute_files (finite : FiniteReach (dependentIds dependents) changed)
    (hanswers : NeverFails dependents changed) :
    ∃ (c : Cascade) (order : List SymbolId),
      (compute dependents changed finite).answer = .ok c ∧
      IsClosure dependents changed c ∧
      (compute dependents changed finite).questions = order.map (fun id => .dependents [id]) ∧
      order.Nodup ∧ (∀ id, id ∈ order ↔ Reach (dependentIds dependents) changed id) ∧
      (∀ entry ∈ c.entries,
        (entry.filePath.isSome = true ↔ ∃ a, Reach (dependentIds dependents) changed a ∧
          ∃ edge ∈ reported dependents a,
            edge.symbolId = entry.symbolId ∧ edge.filePath.isSome = true) ∧
        ∀ file, entry.filePath = some file ↔
          IsFirstFile (order.flatMap (reported dependents)) entry.symbolId file) ∧
      ∀ e : Engine, e.analyzer.dependents = dependents → (e.cascade changed).result = .ok c := by
  obtain ⟨w, hwalk, hanswer, hquestions, hexplored, hend⟩ := exists_walk finite hanswers
  obtain ⟨hsteps, -, -⟩ := walk_steps finite _ _ hwalk
  have hfilled := Walk.filled_steps (Walk.filled_start dependents changed) hsteps
  -- The symbols were asked about in the order in which they were expanded.
  have horder : ∀ id, id ∈ w.expanded.reverse ↔ Reach (dependentIds dependents) changed id := by
    intro id
    rw [List.mem_reverse, (hexplored.expanded_perm hend).mem_iff, hexplored.mem_nodes_iff hend]
  refine ⟨ofWalk changed w, w.expanded.reverse, hanswer, isClosure_ofWalk hexplored hend,
    hquestions, List.nodup_reverse.mpr hexplored.nodup_expanded, horder, fun entry hentry => ?_,
    fun e he => ?_⟩
  · obtain ⟨f, hf, rfl⟩ := List.mem_map.mp hentry
    rw [hfilled.file f hf]
    refine ⟨?_, fun file => firstFile?_eq_some_iff⟩
    simp only [isSome_firstFile?_iff, Walk.met, List.mem_flatMap, horder]
    constructor
    · rintro ⟨edge, ⟨a, ha, hedge⟩, hcarries⟩
      exact ⟨a, ha, edge, hedge, hcarries⟩
    · rintro ⟨a, ha, edge, hedge, hcarries⟩
      exact ⟨edge, ⟨a, ha, hedge⟩, hcarries⟩
  · rw [← Inquiry.run_answer, run_engine_cascade finite he, hanswer]
    rfl

/-- Scripts whose files become known one after the other: that of a changed script on the way back
    to it, and that of another script after it was expanded. -/
def late : AnalyzerTables where
  dependents := some [
    (script "s", ⟨script "a", none⟩), (script "s", ⟨script "b", none⟩),
    (script "a", ⟨script "s", some ⟨"s.gml"⟩⟩), (script "a", ⟨script "b", some ⟨"b.gml"⟩⟩),
    (script "b", ⟨script "a", some ⟨"a.gml"⟩⟩), (script "b", ⟨script "b", some ⟨"old/b.gml"⟩⟩)]

/-- Each of the three files becomes known after its symbol was found. -/
theorem compute_files_late :
    ∃ (c : Cascade) (order : List SymbolId),
      (compute late.dependentsAnswer [script "s"] (late.finite _)).answer = .ok c ∧
      c.entries.map (fun entry => (entry.symbolId, entry.filePath)) =
        [(script "s", some ⟨"s.gml"⟩), (script "a", some ⟨"a.gml"⟩), (script "b", some ⟨"b.gml"⟩)] ∧
      (compute late.dependentsAnswer [script "s"] (late.finite _)).questions =
        order.map (fun id => .dependents [id]) ∧
      ∀ entry ∈ c.entries, ∀ file, entry.filePath = some file ↔
        IsFirstFile (order.flatMap (reported late.dependentsAnswer)) entry.symbolId file := by
  obtain ⟨c, order, hanswer, -, hquestions, -, -, hfiles, -⟩ :=
    compute_files (late.finite _) (neverFails_table late (by decide) [script "s"])
  have hentries : ((compute late.dependentsAnswer [script "s"] (late.finite _)).answer.map
      fun c => c.entries.map fun entry => (entry.symbolId, entry.filePath)).toOption =
        some [(script "s", some ⟨"s.gml"⟩), (script "a", some ⟨"a.gml"⟩),
          (script "b", some ⟨"b.gml"⟩)] := by cbv
  rw [hanswer] at hentries
  exact ⟨c, order, hanswer, Option.some.inj hentries, hquestions,
    fun entry hentry => (hfiles entry hentry).2⟩

end Cascade
end HotRename
