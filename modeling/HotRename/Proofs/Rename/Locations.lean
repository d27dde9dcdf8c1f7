import HotRename.Proofs.Rename.Apply
import HotRename.Proofs.Store.Disk

/-!
# Applying an edit on disk

Edits are grouped by their paths, and files on disk are told apart by their locations. Two paths
that are not the same, such as `a` and `./a`, may lead to one location. Each of them is then read
and spliced on its own, and the file keeps what was written last: the splice of the greatest path.
The edits of the other paths are lost, and nothing checks whether they overlap with those that are
kept. Where all edits to a file spell the same path, none of them is lost.

* `run_disk_greatest_path`  what an edit that is carried out leaves at each location
* `run_disk_edit_lost`      an edit that is lost
-/

namespace HotRename

namespace Disk

/-- The edits whose paths lead to a location. -/
def editsAt (d : Disk) (edit : WorkspaceEdit) (loc : Location) : List TextEdit :=
  edit.edits.filter fun e => d.location? e.path = some loc

/-- The bytes of the file at a location in `d'` are those in `d` with all spans of the edits
    replaced at once. -/
def ReplacedAt (d d' : Disk) (loc : Location) (edits : List TextEdit) : Prop :=
  ∃ old new, d.tree.file? loc = some old ∧ d'.tree.file? loc = some new ∧
    Splice.Replaced (TextEdit.replacements edits) old.bytes.data.toList new.bytes.data.toList

/-- The edits at a location are those whose paths lead there. -/
theorem mem_editsAt {d : Disk} {edit : WorkspaceEdit} {loc : Location} {e : TextEdit} :
    e ∈ d.editsAt edit loc ↔ e ∈ edit.edits ∧ d.location? e.path = some loc := by
  simp [editsAt]

/-- The edits of a path are among those of its location. -/
theorem editsFor_eq_filter {d : Disk} {edit : WorkspaceEdit} {loc : Location} {q : Path}
    (hq : d.location? q = some loc) :
    edit.editsFor q = (d.editsAt edit loc).filter fun e => q.same e.path := by
  rw [editsAt, List.filter_filter, WorkspaceEdit.editsFor]
  refine List.filter_congr fun e _ => ?_
  cases hsame : q.same e.path with
  | false => rfl
  | true => simp [← location?_congr hsame, hq]

/-- Among the edited files, the one under which a path is grouped leads to the same location. -/
theorem exists_key {d : Disk} {edit : WorkspaceEdit} {loc : Location} {e : TextEdit}
    (he : e ∈ d.editsAt edit loc) :
    ∃ q ∈ edit.groupKeys.filter fun q => d.location? q = some loc, e.path.same q = true := by
  obtain ⟨hmem, hloc⟩ := mem_editsAt.mp he
  obtain ⟨q, hq, hsame⟩ := WorkspaceEdit.exists_groupKey hmem
  refine ⟨q, List.mem_filter.mpr ⟨hq, ?_⟩, hsame⟩
  rw [← location?_congr hsame, hloc]
  exact decide_eq_true rfl

end Disk

namespace Apply

open Disk

/-- Two edits of one path are disjoint when all groups could be spliced. -/
theorem pairwise_disjoint_of_spliced {edit : WorkspaceEdit} {files : List (Path × String)}
    {read : Path → Except StorageError String} (hkeys : files.map Prod.fst = edit.groupKeys)
    (hspliced : ∀ file ∈ files, SplicedFrom read edit file) :
    edit.edits.Pairwise fun a b => a.path.same b.path = true → a.Disjoint b := by
  rw [List.pairwise_iff_forall_sublist]
  intro a b hsub hsame
  obtain ⟨q, hq, hkey⟩ := WorkspaceEdit.exists_groupKey (hsub.subset List.mem_cons_self)
  rw [← hkeys] at hq
  obtain ⟨file, hfile, rfl⟩ := List.mem_map.mp hq
  obtain ⟨old, -, hreplaced⟩ := hspliced file hfile
  have hgroup := TextEdit.pairwise_disjoint hreplaced.inOrder
  rw [← edit.editsFor_congr hkey] at hgroup
  -- Both edits are in the group of the first.
  have hpair : ([a, b].filter fun e => a.path.same e.path) = [a, b] :=
    List.filter_eq_self.mpr (by simpa using hsame)
  refine List.pairwise_iff_forall_sublist.mp hgroup ?_
  rw [← hpair]
  exact hsub.filter _

/-- The last of the ascending files that lead to a location is the greatest path of an edit that
    leads there. -/
theorem le_of_getLast? {edit : WorkspaceEdit} {d : Disk} {loc : Location} {q : Path}
    (hlast : (edit.groupKeys.filter fun q => d.location? q = some loc).getLast? = some q)
    {e : TextEdit} (he : e ∈ d.editsAt edit loc) : e.path.le q = true := by
  -- The path of the edit is that of a group, and the groups ascend.
  obtain ⟨key, hkey, hsame⟩ := exists_key he
  obtain ⟨before, hkeys⟩ := List.getLast?_eq_some_iff.mp hlast
  have hasc := edit.groupKeys_pairwise.filter fun q => d.location? q = some loc
  rw [hkeys] at hkey hasc
  rw [Path.le, Path.cmp_congr_left hsame]
  rcases List.mem_append.mp hkey with hbefore | hmem
  · rw [(List.pairwise_append.mp hasc).2.2 key hbefore q List.mem_cons_self]
    rfl
  · rw [List.mem_singleton.mp hmem, Path.cmp_eq_iff.mpr (Path.same_self q)]
    rfl

/-- What an edit that is carried out leaves at a location. -/
structure CarriedAt (edit : WorkspaceEdit) (d d' : Disk) (loc : Location) : Prop where
  /-- Edits of one path do not overlap. -/
  disjoint : (d.editsAt edit loc).Pairwise fun a b => a.path.same b.path = true → a.Disjoint b
  /-- A file to which no edit leads is as it was. -/
  kept : d.editsAt edit loc = [] → d'.tree.file? loc = d.tree.file? loc
  /-- Any other file has the edits of the greatest path carried out. These are all of its edits
      exactly if the paths of all of them are the same. -/
  replaced : d.editsAt edit loc ≠ [] → ∃ last ∈ d.editsAt edit loc,
    (∀ a ∈ d.editsAt edit loc, a.path.le last.path = true) ∧
    d.ReplacedAt d' loc ((d.editsAt edit loc).filter fun a => last.path.same a.path) ∧
    (((d.editsAt edit loc).filter fun a => last.path.same a.path) = d.editsAt edit loc ↔
      ∀ a ∈ d.editsAt edit loc, ∀ b ∈ d.editsAt edit loc, a.path.same b.path = true)

/-- On disk an edit is carried out path by path. No edit to a file is lost exactly if all edits to
    the file are of one path. -/
theorem run_disk_greatest_path {edit : WorkspaceEdit} {d d' : Disk} {result : ApplyResult}
    (h : run edit false d = (.ok result, d')) (loc : Location) : CarriedAt edit d d' loc := by
  obtain ⟨hcompute, hwrite⟩ := run_eq_ok h
  obtain ⟨hkeys, hspliced⟩ := compute_ok hcompute
  -- The files are written in ascending order, so the last write to a location decides.
  have hlook := writeAll_replaced hspliced hwrite loc
  rw [hkeys] at hlook
  have hdisjoint := (pairwise_disjoint_of_spliced hkeys hspliced).filter fun e =>
    d.location? e.path = some loc
  split at hlook
  · rename_i hnone
    have hempty : (edit.groupKeys.filter fun q => d.location? q = some loc) = [] :=
      List.getLast?_eq_none_iff.mp hnone
    refine ⟨hdisjoint, fun _ => hlook, fun hne => ?_⟩
    obtain ⟨e, he⟩ := List.exists_mem_of_ne_nil _ hne
    obtain ⟨q, hq, -⟩ := exists_key he
    rw [hempty] at hq
    exact absurd hq List.not_mem_nil
  · rename_i q hlast
    obtain ⟨hq, hloc⟩ := List.mem_filter.mp (List.mem_of_getLast? hlast)
    have hloc : d.location? q = some loc := of_decide_eq_true hloc
    obtain ⟨last, hmem, rfl⟩ := WorkspaceEdit.exists_path_eq_of_mem_groupKeys hq
    have hlastAt : last ∈ d.editsAt edit loc := mem_editsAt.mpr ⟨hmem, hloc⟩
    refine ⟨hdisjoint, fun hnil => ?_,
      fun _ => ⟨last, hlastAt, fun e => le_of_getLast? hlast, ?_, ?_⟩⟩
    · rw [hnil] at hlastAt
      exact absurd hlastAt List.not_mem_nil
    · rw [← editsFor_eq_filter hloc]
      exact hlook
    · -- All paths are the same as one of them exactly if any two are the same.
      rw [List.filter_eq_self]
      refine ⟨fun hall a ha b hb => ?_, fun hall a ha => hall last hlastAt a ha⟩
      rw [← Path.same_congr (hall a ha)]
      exact hall b hb

/-! ## A lost edit -/

/-- A project of one file. -/
def oneFile (text : String) : Disk where
  root := ⟨"."⟩
  tree := { entries := [(["a.gml"], .file { bytes := text.toUTF8 })], workingDirectory := [] }

/-- Two edits to one file, under two paths. -/
def twoPaths : WorkspaceEdit :=
  ⟨[⟨⟨"./a.gml"⟩, 5, 7, "life"⟩, ⟨⟨"a.gml"⟩, 0, 2, "life"⟩]⟩

section TwoPaths

variable {a b : TextEdit}

/-- The two paths are two files for the edit. -/
theorem groupKeys_of_twoPaths (ha : a.path = ⟨"./a.gml"⟩) (hb : b.path = ⟨"a.gml"⟩) :
    (⟨[a, b]⟩ : WorkspaceEdit).groupKeys = [⟨"./a.gml"⟩, ⟨"a.gml"⟩] := by
  have hfirst : Path.firstSpellings [⟨"./a.gml"⟩, ⟨"a.gml"⟩] = [⟨"./a.gml"⟩, ⟨"a.gml"⟩] := by decide
  rw [WorkspaceEdit.groupKeys, List.map_cons, List.map_cons, List.map_nil, ha, hb, Path.keys,
    hfirst, Path.sort, List.mergeSort_of_pairwise]
  decide

/-- Each of them has its own edit. -/
theorem groups_of_twoPaths (ha : a.path = ⟨"./a.gml"⟩) (hb : b.path = ⟨"a.gml"⟩) :
    (⟨[a, b]⟩ : WorkspaceEdit).groups = [(⟨"./a.gml"⟩, [a]), (⟨"a.gml"⟩, [b])] := by
  -- The paths differ in their components, so each edit is in a group of its own.
  have hsame : (⟨"./a.gml"⟩ : Path).same ⟨"a.gml"⟩ = false ∧
      (⟨"a.gml"⟩ : Path).same ⟨"./a.gml"⟩ = false := by decide
  simp [WorkspaceEdit.groups, groupKeys_of_twoPaths ha hb, WorkspaceEdit.editsFor, ha, hb, hsame,
    Path.same_self, TextEdit.sortTailFirst]

end TwoPaths

/-- Both paths lead to the file. -/
theorem locate_oneFile (text : String) {p : Path} (h : p ∈ twoPaths.edits.map TextEdit.path) :
    ∃ full, resolve ⟨"."⟩ p = .ok full ∧ (oneFile text).tree.locate full = .ok ["a.gml"] := by
  obtain ⟨full, hfull, hspelled⟩ : ∃ full, resolve ⟨"."⟩ p = .ok full ∧
      (full = ⟨"././a.gml"⟩ ∨ full = ⟨"./a.gml"⟩) := by
    simp only [twoPaths, List.map_cons, List.map_nil, List.mem_cons, List.not_mem_nil,
      or_false] at h
    rcases h with rfl | rfl
    · exact ⟨_, Except.toOption_eq_some.mp (by decide), .inl rfl⟩
    · exact ⟨_, Except.toOption_eq_some.mp (by decide), .inr rfl⟩
  refine ⟨full, hfull, ?_⟩
  -- The spellings differ in a step that goes nowhere.
  have hcomponents : full.components = [.here, .name "a.gml"] := by
    rcases hspelled with rfl | rfl <;> decide
  have hspelling : FileTree.checkSpelling full = .ok () := by
    rcases hspelled with rfl | rfl <;> simp [FileTree.checkSpelling, FileTree.maxPathBytes] <;>
      decide
  have hdemands : FileTree.demandsDirectory full = false := by
    rcases hspelled with rfl | rfl <;> decide
  rw [FileTree.locate, hspelling, hcomponents, hdemands]
  rfl

/-- The bytes of a text are read as the text. -/
theorem fromUTF8?_toUTF8 (text : String) : String.fromUTF8? text.toUTF8 = some text := by
  unfold String.fromUTF8?
  rw [dif_pos]
  rfl

/-- The file is read under both paths. -/
theorem read_oneFile (text : String) {p : Path} (h : p ∈ twoPaths.edits.map TextEdit.path) :
    Store.read (oneFile text) p = .ok text := by
  obtain ⟨full, hfull, hlocate⟩ := locate_oneFile text h
  have hfile : (oneFile text).tree.file? ["a.gml"] = some { bytes := text.toUTF8 } := rfl
  refine Except.bind_eq_ok.mpr ⟨full, hfull, Except.mapError_eq_ok.mpr ?_⟩
  refine Except.bind_eq_ok.mpr ⟨_, hlocate, ?_⟩
  simp only [hfile, fromUTF8?_toUTF8]
  rfl

/-- The file is written under both paths. -/
theorem write_oneFile (text new : String) {p : Path}
    (h : p ∈ twoPaths.edits.map TextEdit.path) :
    Store.write (oneFile text) p new = .ok (oneFile new) := by
  obtain ⟨full, hfull, hlocate⟩ := locate_oneFile text h
  refine Except.bind_eq_ok.mpr ⟨full, hfull, Except.bind_eq_ok.mpr ⟨(oneFile new).tree, ?_, rfl⟩⟩
  exact Except.mapError_eq_ok.mpr (Except.bind_eq_ok.mpr ⟨_, hlocate, rfl⟩)

/-- Two edits under two paths are carried out one after the other, both on what was read at the
    beginning. -/
theorem run_of_twoPaths {σ : Type} [Store σ] {s s₁ s₂ : σ} {a b : TextEdit}
    {lesser greater first second : String} (ha : a.path = ⟨"./a.gml"⟩) (hb : b.path = ⟨"a.gml"⟩)
    (hvalid : (⟨[a, b]⟩ : WorkspaceEdit).validate = .ok ())
    (hlesser : Store.read s ⟨"./a.gml"⟩ = .ok lesser)
    (hgreater : Store.read s ⟨"a.gml"⟩ = .ok greater)
    (hfirst : Splice.apply ⟨"./a.gml"⟩ lesser [a] = .ok first)
    (hsecond : Splice.apply ⟨"a.gml"⟩ greater [b] = .ok second)
    (hwrite : Store.write s ⟨"./a.gml"⟩ first = .ok s₁)
    (hwrite' : Store.write s₁ ⟨"a.gml"⟩ second = .ok s₂) :
    run ⟨[a, b]⟩ false s =
      (.ok { files := [(⟨"./a.gml"⟩, first), (⟨"a.gml"⟩, second)], written := true }, s₂) := by
  -- Both texts are computed before one of them is written.
  have hcompute : compute ⟨[a, b]⟩ s = .ok [(⟨"./a.gml"⟩, first), (⟨"a.gml"⟩, second)] := by
    rw [compute, hvalid, groups_of_twoPaths ha hb]
    simp only [spliceAll, hlesser, hgreater, Except.mapError_ok, Except.ok_bind, hfirst, hsecond]
    rfl
  simp only [run, hcompute, writeAll, hwrite, hwrite']
  rfl

/-- The edit of the greater path is carried out, and that of the other one is lost. -/
theorem run_oneFile {a b : TextEdit} {text first second : String}
    (ha : a.path = ⟨"./a.gml"⟩) (hb : b.path = ⟨"a.gml"⟩)
    (hvalid : (⟨[a, b]⟩ : WorkspaceEdit).validate = .ok ())
    (hfirst : Splice.apply ⟨"./a.gml"⟩ text [a] = .ok first)
    (hsecond : Splice.apply ⟨"a.gml"⟩ text [b] = .ok second) :
    run ⟨[a, b]⟩ false (oneFile text) =
      (.ok { files := [(⟨"./a.gml"⟩, first), (⟨"a.gml"⟩, second)], written := true },
        oneFile second) := by
  have hlesser : ⟨"./a.gml"⟩ ∈ twoPaths.edits.map TextEdit.path := by decide
  have hgreater : ⟨"a.gml"⟩ ∈ twoPaths.edits.map TextEdit.path := by decide
  exact run_of_twoPaths ha hb hvalid (read_oneFile _ hlesser) (read_oneFile _ hgreater) hfirst
    hsecond (write_oneFile _ _ hlesser) (write_oneFile _ _ hgreater)

/-- The second write replaces what the first one wrote. -/
theorem run_twoPaths : run twoPaths false (oneFile "hp = hp + 1;") =
    (.ok {
      files := [(⟨"./a.gml"⟩, "hp = life + 1;"), (⟨"a.gml"⟩, "life = hp + 1;")]
      written := true }, oneFile "life = hp + 1;") := by
  have hvalid : twoPaths.validate = .ok () := by
    rw [WorkspaceEdit.validate, twoPaths, groups_of_twoPaths rfl rfl]
    rfl
  exact run_oneFile rfl rfl hvalid (Except.toOption_eq_some.mp (by decide +kernel))
    (Except.toOption_eq_some.mp (by decide +kernel))

/-- Both edits are to the file. -/
theorem editsAt_twoPaths (text : String) :
    (oneFile text).editsAt twoPaths ["a.gml"] = twoPaths.edits := by
  rw [editsAt, List.filter_eq_self]
  intro e he
  obtain ⟨full, hfull, hlocate⟩ := locate_oneFile text (List.mem_map_of_mem he)
  exact decide_eq_true (location?_of_locate hfull hlocate)

/-- Of the two edits the second one is carried out. -/
theorem run_disk_greatest_path_twoPaths :
    ∃ result, run twoPaths false (oneFile "hp = hp + 1;") = (.ok result, oneFile "life = hp + 1;") ∧
      CarriedAt twoPaths (oneFile "hp = hp + 1;") (oneFile "life = hp + 1;") ["a.gml"] :=
  ⟨_, run_twoPaths, run_disk_greatest_path run_twoPaths ["a.gml"]⟩

/-- An edit that is carried out need not replace the spans of all edits to a file, even if no two
    of them overlap. -/
theorem run_disk_edit_lost :
    ∃ (edit : WorkspaceEdit) (d d' : Disk) (result : ApplyResult) (loc : Location),
      run edit false d = (.ok result, d') ∧
      (d.editsAt edit loc).Pairwise TextEdit.Disjoint ∧
      ¬ d.ReplacedAt d' loc (d.editsAt edit loc) := by
  refine ⟨_, _, _, _, ["a.gml"], run_twoPaths, ?_, ?_⟩
  · rw [editsAt_twoPaths]
    simp [twoPaths, TextEdit.Disjoint]
  · rw [editsAt_twoPaths]
    rintro ⟨old, new, hold, hnew, -, hbytes⟩
    cases hold
    cases hnew
    -- Both replacements together would give another text.
    have hsorted : TextEdit.sortTailFirst twoPaths.edits = twoPaths.edits :=
      List.mergeSort_of_pairwise (by decide +kernel)
    rw [TextEdit.replacements, hsorted] at hbytes
    revert hbytes
    decide +kernel

end Apply
end HotRename
