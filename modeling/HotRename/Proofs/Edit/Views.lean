import HotRename.Proofs.Edit.Groups
import HotRename.Proofs.Edit.StableSort
import Mathlib.Data.List.Induction
import Mathlib.Data.List.Perm.Basic

/-!
# The views of an edit by file

A workspace edit is a bag of edits in which one file may be spelled in several ways. Its views by
file are the set of its files, the edits of a path, their number, and the groups in which they are
carried out. The groups and the numbers are tables that can be filled in one pass over the edits, an
entry being made for a path when it is met first. All views are of the same files, and together the
groups hold every edit once. Main statements:

* `Path.keys_append`        the keys of a table after one more path was met
* `foldl_alter`             a table that is filled in one pass
* `flatMap_editsFor_perm`   the edits put together file by file
* `views_agree`             what the views have to do with each other
-/

namespace HotRename

namespace Path

/-! ## Tables filled entry by entry -/

/-- The table with the value under a path changed. A path that is not there gets an entry, at its
    place in the order of paths. -/
def alter (f : Option α → α) (p : Path) : List (Path × α) → List (Path × α)
  | [] => [(p, f none)]
  | (q, a) :: rest =>
    match q.cmp p with
    | .lt => (q, a) :: alter f p rest
    | .eq => (q, f (some a)) :: rest
    | .gt => (p, f none) :: (q, a) :: rest

/-- Ascending paths with one more at its place, unless they have it under some spelling. -/
def addKey (p : Path) : List Path → List Path
  | [] => [p]
  | q :: qs =>
    match q.cmp p with
    | .lt => q :: addKey p qs
    | .eq => q :: qs
    | .gt => p :: q :: qs

variable {p q : Path} {ps qs : List Path}

/-- A path that comes after another is not the same. -/
theorem same_eq_false_of_gt (h : q.cmp p = .gt) : q.same p = false := by
  have hlt : p.cmp q = .lt := by rw [cmp_swap, h]; rfl
  rw [same_comm]
  exact not_same_of_lt hlt

/-- Paths behind one that is not before `p` are not `p`. -/
theorem same_eq_false_of_forall_lt (hlt : ∀ r ∈ qs, q.cmp r = .lt) (hle : p.le q = true) :
    ∀ r ∈ qs, r.same p = false := by
  intro r hr
  have hpr : p.cmp r = .lt := Std.TransCmp.lt_of_isLE_of_lt hle (hlt r hr)
  rw [same_comm]
  exact not_same_of_lt hpr

/-- The keys are those that were there, and the path if it is new. -/
theorem mem_addKey (h : qs.Pairwise fun q r => q.cmp r = .lt) {r : Path} :
    r ∈ addKey p qs ↔ r ∈ qs ∨ r = p ∧ ∀ q ∈ qs, q.same p = false := by
  induction qs with
  | nil => simp [addKey]
  | cons q qs ih =>
    obtain ⟨hlt, hasc⟩ := List.pairwise_cons.mp h
    rw [addKey]
    split
    · rename_i hcmp
      simp [ih hasc, not_same_of_lt hcmp, or_assoc]
    · rename_i hcmp
      simp [cmp_eq_iff.mp hcmp]
    · rename_i hcmp
      -- The path comes before `q`, so it is none of the keys from here on.
      have hle : p.le q = true := by rw [le, cmp_swap, hcmp]; rfl
      have hrest := same_eq_false_of_forall_lt hlt hle
      simp only [List.mem_cons, forall_eq_or_imp, same_eq_false_of_gt hcmp, true_and]
      tauto

/-- The keys stay in ascending order. -/
theorem addKey_pairwise (h : qs.Pairwise fun q r => q.cmp r = .lt) :
    (addKey p qs).Pairwise fun q r => q.cmp r = .lt := by
  induction qs with
  | nil => exact List.pairwise_singleton _ _
  | cons q qs ih =>
    obtain ⟨hlt, hasc⟩ := List.pairwise_cons.mp h
    rw [addKey]
    split
    -- The key goes in behind `q`.
    · rename_i hcmp
      refine .cons (fun r hr => ?_) (ih hasc)
      rcases (mem_addKey hasc).mp hr with hr | ⟨rfl, -⟩
      -- The path is `q` in another spelling, and nothing changes.
      · exact hlt r hr
      · exact hcmp
    · exact h
    · rename_i hcmp
      -- The key goes in front of `q`, and so of all that follow it.
      have hpq : p.cmp q = .lt := by rw [cmp_swap, hcmp]; rfl
      refine .cons (fun r hr => ?_) h
      rcases List.mem_cons.mp hr with rfl | hr
      · exact hpq
      · exact Std.TransCmp.lt_trans hpq (hlt r hr)

/-- Of one more path the first spelling is kept if the path is new. -/
theorem firstSpellings_append (ps : List Path) (p : Path) :
    firstSpellings (ps ++ [p]) = firstSpellings ps ++ if ps.any p.same then [] else [p] := by
  induction ps with
  | nil => rfl
  | cons q ps ih =>
    rw [List.cons_append, firstSpellings, ih, firstSpellings, List.filter_append, List.any_cons,
      List.cons_append]
    congr 2
    rw [same_comm p q]
    cases hq : q.same p <;> cases hps : ps.any p.same <;> simp [hq]

/-- A path that is met once more changes nothing, and a new one gets its place among the keys. -/
theorem keys_append (ps : List Path) (p : Path) : keys (ps ++ [p]) = addKey p (keys ps) := by
  -- Both are ascending, so they are the same list if they have the same members.
  refine eq_of_ascending (keys_pairwise _) (addKey_pairwise (keys_pairwise ps)) fun r => ?_
  have hnew : (∀ q ∈ keys ps, q.same p = false) ↔ ps.any p.same = false := by
    rw [← any_same_keys, List.any_eq_false]
    simp only [Bool.not_eq_true, same_comm p]
  rw [mem_addKey (keys_pairwise ps), hnew]
  simp only [keys, sort, List.mem_mergeSort, firstSpellings_append, List.mem_append]
  cases ps.any p.same <;> simp

/-- Changing the value of one path in a table with the given keys. -/
theorem alter_map {f : Option α → α} {value value' : Path → α}
    (h : qs.Pairwise fun q r => q.cmp r = .lt)
    (hother : ∀ q ∈ qs, q.same p = false → value' q = value q)
    (hsame : ∀ q ∈ qs, q.same p = true → value' q = f (some (value q)))
    (hnew : (∀ q ∈ qs, q.same p = false) → value' p = f none) :
    alter f p (qs.map fun q => (q, value q)) = (addKey p qs).map fun q => (q, value' q) := by
  induction qs with
  | nil => simp [alter, addKey, hnew]
  | cons q qs ih =>
    obtain ⟨hlt, hasc⟩ := List.pairwise_cons.mp h
    simp only [List.forall_mem_cons] at hother hsame
    rw [List.map_cons, alter, addKey]
    cases hcmp : q.cmp p with
    | lt =>
      have hq := not_same_of_lt hcmp
      simp only [List.map_cons, hother.1 hq]
      rw [ih hasc hother.2 hsame.2 fun hqs => hnew (List.forall_mem_cons.mpr ⟨hq, hqs⟩)]
    | eq =>
      -- The paths behind this one are not the path, so they keep their values.
      have hle : p.le q = true := by rw [le, cmp_swap, hcmp]; rfl
      have hrest := same_eq_false_of_forall_lt hlt hle
      simp only [List.map_cons, hsame.1 (cmp_eq_iff.mp hcmp)]
      congr 1
      refine List.map_congr_left fun r hr => ?_
      rw [hother.2 r hr (hrest r hr)]
    -- The path gets an entry of its own in front of this one.
    | gt =>
      have hle : p.le q = true := by rw [le, cmp_swap, hcmp]; rfl
      have hq := same_eq_false_of_gt hcmp
      have hrest := same_eq_false_of_forall_lt hlt hle
      simp only [List.map_cons, hnew (List.forall_mem_cons.mpr ⟨hq, hrest⟩), hother.1 hq]
      congr 2
      refine List.map_congr_left fun r hr => ?_
      rw [hother.2 r hr (hrest r hr)]

end Path

namespace WorkspaceEdit

/-- A table with an entry for each file, filled in one pass over the edits. What it says of a file
    is what the edits to the file make of nothing, one after the other. -/
theorem foldl_alter {f : TextEdit → Option α → α} {value : List TextEdit → α}
    (hfirst : ∀ e, value [e] = f e none)
    (hnext : ∀ es e, value (es ++ [e]) = f e (some (value es))) (w : WorkspaceEdit) :
    w.edits.foldl (fun table e => Path.alter (f e) e.path table) [] =
      w.groupKeys.map fun p => (p, value (w.editsFor p)) := by
  obtain ⟨edits⟩ := w
  simp only [groupKeys, editsFor]
  induction edits using List.reverseRecOn with
  | nil => simp [Path.keys, Path.sort, Path.firstSpellings]
  | append_singleton es e ih =>
    rw [List.foldl_append, List.foldl_cons, List.foldl_nil, ih, List.map_append, List.map_singleton,
      Path.keys_append]
    -- The edit joins the edits of its own file and of no other.
    refine Path.alter_map (Path.keys_pairwise _) ?_ ?_ ?_
    · intro q _ hq
      simp [List.filter_append, hq]
    · intro q _ hq
      simp only [List.filter_append, List.filter_cons, hq, if_true, List.filter_nil, hnext]
    -- No key is the path of the edit, so no earlier edit was to its file.
    · intro hkeys
      have hnone : (es.filter fun d => e.path.same d.path) = [] := by
        rw [List.filter_eq_nil_iff]
        intro d hd hsame
        have hany : (Path.keys (es.map TextEdit.path)).any e.path.same = true := by
          rw [Path.any_same_keys]
          exact List.any_eq_true.mpr ⟨d.path, List.mem_map_of_mem hd, hsame⟩
        obtain ⟨q, hq, hqe⟩ := List.any_eq_true.mp hany
        rw [Path.same_comm, hkeys q hq] at hqe
        cases hqe
      simp [List.filter_append, hnone, hfirst]

/-- The edits by file, filled in one pass: an edit goes to the end of the edits of its file. -/
def gathered (w : WorkspaceEdit) : List (Path × List TextEdit) :=
  w.edits.foldl (fun table e => Path.alter (fun es => es.getD [] ++ [e]) e.path table) []

/-- The numbers of edits by file, counted in one pass. -/
def tallied (w : WorkspaceEdit) : List (Path × Nat) :=
  w.edits.foldl (fun table e => Path.alter (fun n => n.getD 0 + 1) e.path table) []

/-- The edits gathered in one pass are those of each file. -/
theorem gathered_eq (w : WorkspaceEdit) :
    w.gathered = w.groupKeys.map fun p => (p, w.editsFor p) :=
  @foldl_alter _ (fun e es => es.getD [] ++ [e]) id (fun _ => rfl) (fun _ _ => rfl) w

/-- The numbers counted in one pass are the lengths of the groups. -/
theorem tallied_eq (w : WorkspaceEdit) : w.tallied = w.counts :=
  @foldl_alter _ (fun _ n => n.getD 0 + 1) List.length (fun _ => rfl)
    (fun _ _ => List.length_append) w

/-! ## The edits file by file -/

/-- Edits are put together file by file, where every edit is to one of the files and no two of the
    files are the same. -/
theorem flatMap_editsFor_perm {keys : List Path} {edits : List TextEdit}
    (hkeys : keys.Pairwise fun p q => p.same q = false)
    (hcover : ∀ e ∈ edits, ∃ p ∈ keys, p.same e.path = true) :
    (keys.flatMap fun p => edits.filter fun e => p.same e.path).Perm edits := by
  induction keys generalizing edits with
  | nil =>
    cases edits with
    | nil => exact .nil
    | cons e es =>
      obtain ⟨p, hp, -⟩ := hcover e List.mem_cons_self
      cases hp
  | cons p keys ih =>
    obtain ⟨hp, hkeys⟩ := List.pairwise_cons.mp hkeys
    let others := edits.filter fun e => !p.same e.path
    have hothers : ∀ e ∈ others, ∃ q ∈ keys, q.same e.path = true := by
      intro e he
      obtain ⟨he, hpe⟩ := List.mem_filter.mp he
      obtain ⟨q, hq, hqe⟩ := hcover e he
      rcases List.mem_cons.mp hq with rfl | hq
      · simp [hqe] at hpe
      · exact ⟨q, hq, hqe⟩
    -- The edits to the first file are none of those to the others.
    have hrest : (keys.flatMap fun q => edits.filter fun e => q.same e.path) =
        keys.flatMap fun q => others.filter fun e => q.same e.path := by
      rw [List.flatMap_def, List.flatMap_def]
      congr 1
      refine List.map_congr_left fun q hq => ?_
      rw [List.filter_filter]
      refine List.filter_congr fun e _ => ?_
      cases hqe : q.same e.path with
      | false => rfl
      | true =>
        have hpe : p.same e.path = false := by
          rw [Path.same_comm, ← Path.same_congr hqe, Path.same_comm, hp q hq]
        rw [hpe]
        rfl
    rw [List.flatMap_cons, hrest]
    exact ((ih hkeys hothers).append_left _).trans (List.filter_append_perm _ edits)

/-- Together the groups hold every edit once. -/
theorem groups_perm (w : WorkspaceEdit) : (w.groups.flatMap Prod.snd).Perm w.edits := by
  have hsorted : (w.groups.flatMap Prod.snd).Perm (w.groupKeys.flatMap w.editsFor) := by
    rw [groups, List.flatMap_map]
    exact List.Perm.flatMap_left _ fun p _ => TextEdit.sortTailFirst_perm _
  refine hsorted.trans (flatMap_editsFor_perm ?_ ?_)
  · exact w.groupKeys_pairwise.imp Path.not_same_of_lt
  · intro e he
    obtain ⟨q, hq, hsame⟩ := exists_groupKey he
    exact ⟨q, hq, by rw [Path.same_comm]; exact hsame⟩

/-- What a table that says something of each edited file says of a path. -/
theorem find?_groupKeys (w : WorkspaceEdit) (value : List TextEdit → α) (p : Path) :
    Path.find? p (w.groupKeys.map fun q => (q, value (w.editsFor q))) =
      if w.touches p then some (value (w.editsFor p)) else none := by
  rw [touches_eq_any_groupKeys, Path.find?, List.find?_map, Option.map_map]
  cases hfound : w.groupKeys.find? fun q => p.same q with
  | none =>
    have hnone : w.groupKeys.any p.same = false := by
      rw [List.any_eq_false]
      exact List.find?_eq_none.mp hfound
    simp [hfound, hnone, Function.comp_def]
  | some q =>
    -- The key may be another spelling, which has the same edits.
    have hsame : p.same q = true := List.find?_some hfound
    have hany : w.groupKeys.any p.same = true :=
      List.any_eq_true.mpr ⟨q, List.mem_of_find?_eq_some hfound, hsame⟩
    simp [hfound, hany, Function.comp_def, w.editsFor_congr hsame]

/-- A path that is not edited has no edits. -/
theorem editsFor_eq_nil {w : WorkspaceEdit} {p : Path} (h : w.touches p = false) :
    w.editsFor p = [] := by
  rw [touches, List.any_eq_false] at h
  exact List.filter_eq_nil_iff.mpr h

/-! ## All views -/

/-- What the views by file have to do with each other and with the edits. -/
structure ViewsAgree (w : WorkspaceEdit) : Prop where
  /-- The groups are gathered in one pass and then sorted, and the numbers counted in one pass. -/
  onePass : w.groups = w.gathered.map (fun group => (group.1, TextEdit.sortTailFirst group.2)) ∧
    w.counts = w.tallied
  /-- No edit is lost, and none is there twice. -/
  perm : (w.groups.flatMap Prod.snd).Perm w.edits
  /-- The group of a path is the one stable arrangement of its edits. -/
  group : ∀ p sorted, TextEdit.IsStableSort (w.editsFor p) sorted ↔
    sorted = (Path.find? p w.groups).getD []
  /-- Every file is counted with the length of its group. -/
  counts : w.counts = w.groups.map fun group => (group.1, group.2.length)
  /-- A path is a key of the groups exactly if it is one of the files, and if some edit is to it. -/
  key_iff_file : ∀ p : Path, (∃ group ∈ w.groups, p.same group.1 = true) ↔
    ∃ file ∈ w.files, p.same file = true
  key_iff_touches : ∀ p : Path, (∃ group ∈ w.groups, p.same group.1 = true) ↔ w.touches p = true
  /-- The keys are different paths, in the order of paths. -/
  ascending : (w.groups.map Prod.fst).Pairwise fun p q => p.same q = false ∧ p.cmp q = .lt

/-- The keys of the groups are the edited paths. -/
theorem exists_group_iff (w : WorkspaceEdit) (p : Path) :
    (∃ group ∈ w.groups, p.same group.1 = true) ↔ w.touches p = true := by
  rw [touches_eq_any_groupKeys, List.any_eq_true, groups]
  simp

/-- So are the files. -/
theorem exists_file_iff (w : WorkspaceEdit) (p : Path) :
    (∃ file ∈ w.files, p.same file = true) ↔ w.touches p = true := by
  rw [files, ← List.any_eq_true, Path.any_same_set, List.any_map]
  rfl

/-- The views of every edit agree. -/
theorem views_agree (w : WorkspaceEdit) : w.ViewsAgree where
  onePass := by
    rw [gathered_eq, tallied_eq, groups, List.map_map]
    exact ⟨rfl, rfl⟩
  perm := w.groups_perm
  group p sorted := by
    rw [TextEdit.isStableSort_iff, groups, w.find?_groupKeys TextEdit.sortTailFirst]
    split
    · rfl
    -- A file without edits has no group, which counts as an empty one.
    · rename_i htouches
      rw [editsFor_eq_nil (Bool.eq_false_iff.mpr htouches), TextEdit.sortTailFirst,
        List.mergeSort_nil, Option.getD_none]
  counts := by
    rw [WorkspaceEdit.counts, groups, List.map_map]
    refine List.map_congr_left fun p _ => ?_
    -- Sorting changes the order of a group but not its length.
    simp [(TextEdit.sortTailFirst_perm (w.editsFor p)).length_eq]
  key_iff_file p := (w.exists_group_iff p).trans (w.exists_file_iff p).symm
  key_iff_touches := w.exists_group_iff
  ascending := by
    have hkeys : w.groups.map Prod.fst = w.groupKeys := by simp [groups, Function.comp_def]
    rw [hkeys]
    exact w.groupKeys_pairwise.imp fun h => ⟨Path.not_same_of_lt h, h⟩

end WorkspaceEdit
end HotRename
