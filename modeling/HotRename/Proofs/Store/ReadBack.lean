import HotRename.Proofs.Rename.Locations
import HotRename.Proofs.Store.Overwrite

/-!
# Reading back what was written

After an edit was carried out on disk, a path leads where it led before, and is read there if it
could be read before. What it reads is the splice of the edits to its file, provided that all edits
to the file name one path. Main statements:

* `Disk.read_eq_ok_iff`    what is read under a path
* `Disk.read_overwritten`  what is read where a file was overwritten
* `writeAll_locate`        writing moves no location
* `run_read`               what is read after an edit was carried out
-/

namespace HotRename

namespace FileTree

variable {t : FileTree} {loc : Location} {content : StoredFile}

/-- The file at the location holds the text. -/
def Holds (t : FileTree) (loc : Location) (text : String) : Prop :=
  ∃ file, t.file? loc = some file ∧ file.bytes = text.toUTF8

/-- Replacing a file leads no path elsewhere. -/
theorem locate_put (hfile : (t.file? loc).isSome) (hloc : t.isDirectory loc = false) (p : Path) :
    locate { t with entries := put t.entries loc content } p = t.locate p := by
  simp only [locate, follow_put hfile hloc, checkDirectory_put hfile hloc]

/-- A file holds one text. -/
theorem Holds.eq {text text' : String} (h : t.Holds loc text) (h' : t.Holds loc text') :
    text = text' := by
  obtain ⟨file, hfile, hbytes⟩ := h
  obtain ⟨file', hfile', hbytes'⟩ := h'
  cases hfile.symm.trans hfile'
  apply Text.bytes_injective
  show text.toUTF8.data.toList = text'.toUTF8.data.toList
  rw [← hbytes, ← hbytes']

end FileTree

/-- A path is read if what it resolves to is the location of a file without a fault. -/
theorem Disk.read_eq_ok_iff {d : Disk} {p : Path} {text : String} :
    d.read p = .ok text ↔ ∃ full loc file, resolve d.root p = .ok full ∧
      d.tree.locate full = .ok loc ∧ d.tree.file? loc = some file ∧ file.readFault = none ∧
      file.bytes = text.toUTF8 := by
  constructor
  · intro h
    obtain ⟨full, hfull, hread⟩ := Except.bind_eq_ok.mp h
    obtain ⟨loc, hloc, hfile⟩ := Except.bind_eq_ok.mp (Except.mapError_eq_ok.mp hread)
    obtain ⟨loc', file, hloc', hfile', hbytes⟩ := read_ok h
    cases (location?_of_locate hfull hloc).symm.trans hloc'
    refine ⟨full, loc, file, hfull, hloc, hfile', ?_, hbytes⟩
    -- A file with a fault is not read.
    rw [hfile'] at hfile
    dsimp only at hfile
    split at hfile
    · cases hfile
    · assumption
  · rintro ⟨full, loc, file, hfull, hloc, hfile, hfault, hbytes⟩
    refine Except.bind_eq_ok.mpr ⟨full, hfull, Except.mapError_eq_ok.mpr ?_⟩
    refine Except.bind_eq_ok.mpr ⟨loc, hloc, ?_⟩
    simp only [hfile, hfault, hbytes, Apply.fromUTF8?_toUTF8]
    rfl

/-- Where a file is overwritten and no path leads elsewhere, a path of the file reads the new text,
    if it could be read before. -/
theorem Disk.read_overwritten {d d' : Disk} {p : Path} {loc : Location} {file : StoredFile}
    {old new : String} (hroot : d'.root = d.root)
    (hlocate : ∀ q, d'.tree.locate q = d.tree.locate q) (hp : d.location? p = some loc)
    (hbefore : d.tree.file? loc = some file) (hfault : file.readFault = none)
    (hbytes : file.bytes = old.toUTF8) (hafter : d'.tree.file? loc = some { bytes := new.toUTF8 })
    (text : String) : d'.read p = .ok text ↔ text = new ∧ ∃ before, d.read p = .ok before := by
  rw [read_eq_ok_iff, hroot]
  simp only [hlocate]
  constructor
  · rintro ⟨full, loc', file', hfull, hloc, hfile, -, htext⟩
    cases (location?_of_locate hfull hloc).symm.trans hp
    -- The path leads to the file, which holds the new text.
    have hheld : d'.tree.Holds loc text := ⟨file', hfile, htext⟩
    exact ⟨hheld.eq ⟨_, hafter, rfl⟩, old,
      read_eq_ok_iff.mpr ⟨full, loc, file, hfull, hloc, hbefore, hfault, hbytes⟩⟩
  · rintro ⟨rfl, before, hread⟩
    obtain ⟨full, loc', -, hfull, hloc, -, -, -⟩ := read_eq_ok_iff.mp hread
    cases (location?_of_locate hfull hloc).symm.trans hp
    exact ⟨full, loc, _, hfull, hloc, hafter, rfl, rfl⟩

namespace Apply

open PlacedStore

/-- A file that alone is put at its place is found there after all files were written. -/
theorem writeAll_alone {σ κ ν : Type} [Store σ] [DecidableEq κ] [PlacedStore σ κ ν]
    {written : List Path} {files : List (Path × String)} {file : Path × String} {s s' : σ} {k : κ}
    (hpresent : ∀ file ∈ files, Present s file.1) (h : writeAll written files s = (.ok (), s'))
    (hfile : file ∈ files) (hplace : place? s file.1 = some k)
    (halone : ∀ other ∈ files, place? s other.1 = some k → other = file) :
    look s' k = some (ofText σ file.2) := by
  have hlook := writeAll_ok hpresent h k
  split at hlook
  -- The file itself was put at the place.
  · rename_i hnone
    have hmem : file ∈ files.filter fun file => place? s file.1 = some k :=
      List.mem_filter.mpr ⟨hfile, decide_eq_true hplace⟩
    rw [List.getLast?_eq_none_iff.mp hnone] at hmem
    cases hmem
  · rename_i last hlast
    obtain ⟨hmem, hlast⟩ := List.mem_filter.mp (List.mem_of_getLast? hlast)
    cases halone last hmem (of_decide_eq_true hlast)
    exact hlook

/-- Writing files that are there moves no location. -/
theorem writeAll_locate {written : List Path} {files : List (Path × String)} {d d' : Disk}
    (hpresent : ∀ file ∈ files, Present d file.1) (h : writeAll written files d = (.ok (), d')) :
    d'.root = d.root ∧ ∀ p, d'.tree.locate p = d.tree.locate p := by
  induction files generalizing written d with
  | nil =>
    cases h
    exact ⟨rfl, fun _ => rfl⟩
  | cons file files ih =>
    rw [writeAll] at h
    split at h
    · cases h
    · rename_i d₁ hwrite
      have hfile := hpresent file List.mem_cons_self
      have hrest : ∀ file' ∈ files, Present d₁ file'.1 := fun file' hfile' =>
        hfile.write (hpresent file' (List.mem_cons_of_mem _ hfile')) hwrite
      obtain ⟨loc, hplace, hsome⟩ := hfile
      obtain ⟨loc', hloc', hdir, rfl⟩ := Disk.write_ok hwrite
      -- The write replaces a file where there was one, which moves nothing.
      cases hplace.symm.trans hloc'
      obtain ⟨hroot, hlocate⟩ := ih hrest h
      refine ⟨hroot, fun p => ?_⟩
      rw [hlocate p]
      exact FileTree.locate_put hsome hdir p

/-- All edits that lead to the file of a path name this path. -/
def OnlyPath (edit : WorkspaceEdit) (d : Disk) (p : Path) : Prop :=
  ∀ a ∈ edit.edits, ∀ loc, d.location? p = some loc → d.location? a.path = some loc →
    p.same a.path = true

/-- After an edit was carried out, a path whose file is edited under no other path reads the splice
    of its edits, if it could be read before. -/
theorem run_read {edit : WorkspaceEdit} {d d' : Disk} {result : ApplyResult}
    (h : run edit false d = (.ok result, d')) {p : Path} (hp : edit.touches p = true)
    (honly : OnlyPath edit d p) :
    ∃ loc old new path, d.location? p = some loc ∧ d.tree.Holds loc old ∧
      Splice.apply path old (TextEdit.sortTailFirst (edit.editsFor p)) = .ok new ∧
      ∀ text, d'.read p = .ok text ↔ text = new ∧ ∃ before, d.read p = .ok before := by
  obtain ⟨hcompute, hwrite⟩ := run_eq_ok h
  obtain ⟨hkeys, hspliced⟩ := compute_ok hcompute
  have hpresent := present_of_spliced hspliced
  -- The file under the spelling of its group, and what was read there.
  rw [WorkspaceEdit.touches_eq_any_groupKeys] at hp
  obtain ⟨q, hq, hsame⟩ := List.any_eq_true.mp hp
  obtain ⟨-, hsplices⟩ := Except.unit_bind_eq_ok.mp hcompute
  obtain ⟨⟨_, new⟩, hnew, hpath, old, hread, hsplice⟩ :=
    exists_of_forall₂ (spliceAll_eq_ok_iff.mp hsplices) (List.mem_map.mpr ⟨q, hq, rfl⟩)
  cases hpath
  obtain ⟨full, loc, file, hfull, hlocate, hfile, hfault, hbytes⟩ := Disk.read_eq_ok_iff.mp hread
  have hqloc := Disk.location?_of_locate hfull hlocate
  have hploc : d.location? p = some loc := (Disk.location?_congr hsame).trans hqloc
  -- No other file is written to the location.
  have halone : ∀ other ∈ result.files, d.location? other.1 = some loc → other = (q, new) := by
    intro other hother hloc
    have hasc := edit.groupKeys_pairwise
    rw [← hkeys] at hasc
    have hkey : other.1 ∈ edit.groupKeys := hkeys ▸ List.mem_map_of_mem hother
    obtain ⟨a, ha, hapath⟩ := WorkspaceEdit.exists_path_eq_of_mem_groupKeys hkey
    have hpa := honly a ha loc hploc (by rw [hapath, hloc])
    refine Path.eq_of_same hasc hother hnew ?_
    show other.1.same q = true
    rw [Path.same_comm, ← Path.same_congr hsame, ← hapath]
    exact hpa
  have hafter := writeAll_alone hpresent hwrite hnew hqloc halone
  obtain ⟨hroot, hmoved⟩ := writeAll_locate hpresent hwrite
  refine ⟨loc, old, new, q, hploc, ⟨file, hfile, hbytes⟩, ?_, ?_⟩
  · rw [edit.editsFor_congr hsame]
    exact hsplice
  · exact Disk.read_overwritten hroot hmoved hploc hfile hfault hbytes hafter

end Apply
end HotRename
