import HotRename.Proofs.Edit.Groups
import HotRename.Proofs.Edit.Substitution
import HotRename.Proofs.Except
import HotRename.Proofs.Store.Memory
import HotRename.Rename.Apply
import Mathlib.Data.List.Forall2

/-!
# What applying an edit does to a store

All files are read and spliced before the first one is written. So an edit that cannot be carried
out leaves the store as it was, and what is written are the splices of the texts that the store
held at the beginning. Writing goes through the files in the order of paths. Of several writes to
one place the last remains. Main statements:

* `writeAll_ok`             what lies at each place after all files were written
* `writeAll_error`          a failed write comes after writes that went well
* `writeAll_replaced`       the same for splices: each place has the edits of one path carried out
-/

namespace HotRename

namespace Splice

/-- The new bytes are the old ones with all spans replaced at once, and the spans lie one behind
    the other inside the old bytes. -/
structure Replaced (replacements : List (Span × String)) (old new : List UInt8) : Prop where
  inOrder : InOrder old.length 0 replacements
  eq_substitute : new = substitute old 0 replacements

end Splice

namespace Apply

/-! ## Reading and splicing -/

/-- The file holds what the edits make of the text that `read` gives for it. -/
def SplicedFrom (read : Path → Except StorageError String) (edit : WorkspaceEdit)
    (file : Path × String) : Prop :=
  ∃ old, read file.1 = .ok old ∧
    Splice.Replaced (TextEdit.replacements (edit.editsFor file.1)) (Text.bytes old)
      (Text.bytes file.2)

/-- The files that are made are the edited ones, each spliced from its text. -/
theorem spliceAll_ok {read : Path → Except StorageError String} {edit : WorkspaceEdit}
    {keys : List Path} {files : List (Path × String)}
    (h : spliceAll read (keys.map fun p => (p, TextEdit.sortTailFirst (edit.editsFor p))) =
      .ok files) :
    files.map Prod.fst = keys ∧ ∀ file ∈ files, SplicedFrom read edit file := by
  induction keys generalizing files with
  | nil =>
    cases h
    exact ⟨rfl, fun _ hfile => nomatch hfile⟩
  | cons p keys ih =>
    simp only [List.map_cons, spliceAll, Except.bind_eq_ok, Except.mapError_eq_ok] at h
    obtain ⟨old, hread, new, hsplice, rest, hrest, hfiles⟩ := h
    cases hfiles
    obtain ⟨hkeys, hspliced⟩ := ih hrest
    refine ⟨by rw [List.map_cons, hkeys], ?_⟩
    intro file hfile
    rcases List.mem_cons.mp hfile with rfl | hfile
    -- The order in which the edits are applied does not matter for what they replace.
    · obtain ⟨horder, hbytes⟩ := Splice.apply_ok hsplice
      rw [TextEdit.replacements_sortTailFirst] at horder hbytes
      exact ⟨old, hread, horder, hbytes⟩
    · exact hspliced file hfile

/-- The text of the file is the splice of the edits into the text that `read` gives for it. -/
def IsSplice (read : Path → Except StorageError String) (group : Path × List TextEdit)
    (file : Path × String) : Prop :=
  file.1 = group.1 ∧ ∃ old, read group.1 = .ok old ∧
    Splice.apply group.1 old group.2 = .ok file.2

/-- The files are spliced one by one. -/
theorem spliceAll_eq_ok_iff {read : Path → Except StorageError String}
    {groups : List (Path × List TextEdit)} {files : List (Path × String)} :
    spliceAll read groups = .ok files ↔ List.Forall₂ (IsSplice read) groups files := by
  induction groups generalizing files with
  | nil =>
    rw [List.forall₂_nil_left_iff]
    exact ⟨fun h => by cases h; rfl, fun h => by rw [h]; rfl⟩
  | cons group groups ih =>
    simp only [spliceAll, Except.bind_eq_ok, Except.mapError_eq_ok, ih,
      List.forall₂_cons_left_iff]
    constructor
    · rintro ⟨old, hread, new, hsplice, rest, hrest, hfiles⟩
      cases hfiles
      exact ⟨(group.1, new), rest, ⟨rfl, old, hread, hsplice⟩, hrest, rfl⟩
    · rintro ⟨⟨path, new⟩, rest, ⟨hpath, old, hread, hsplice⟩, hrest, rfl⟩
      cases hpath
      exact ⟨old, hread, new, hsplice, rest, hrest, rfl⟩

/-- Splicing fails at a file that cannot be read, or at edits that do not fit. -/
theorem spliceAll_error {read : Path → Except StorageError String}
    {groups : List (Path × List TextEdit)} {err : RenameError}
    (h : spliceAll read groups = .error err) :
    (∃ bad, err = .edit bad) ∨
      ∃ path ∈ groups.map Prod.fst, ∃ source,
        err = .application path [] source ∧ read path = .error source := by
  induction groups with
  | nil => exact nomatch h
  | cons group groups ih =>
    obtain ⟨p, edits⟩ := group
    simp only [spliceAll, Except.bind_eq_error, Except.mapError_eq_error] at h
    -- The file is read first, then spliced, and then come the others.
    rcases h with ⟨source, hread, herr⟩ | ⟨old, -, hrest⟩
    · exact .inr ⟨p, by simp, source, herr.symm, hread⟩
    · rcases hrest with ⟨bad, -, herr⟩ | ⟨new, -, hrest⟩
      · exact .inl ⟨bad, herr.symm⟩
      · rcases hrest with hrest | ⟨files, -, hfiles⟩
        · rcases ih hrest with hbad | ⟨path, hpath, source, herr, hread⟩
          · exact .inl hbad
          · exact .inr ⟨path, List.mem_cons_of_mem _ hpath, source, herr, hread⟩
        · exact nomatch hfiles

section

variable {σ : Type} [Store σ]

/-- What is computed are the edited files with their edits. -/
theorem compute_ok {edit : WorkspaceEdit} {s : σ} {files : List (Path × String)}
    (h : compute edit s = .ok files) :
    files.map Prod.fst = edit.groupKeys ∧
      ∀ file ∈ files, SplicedFrom (Store.read s) edit file := by
  simp only [compute, Except.bind_eq_ok] at h
  obtain ⟨-, -, hsplice⟩ := h
  exact spliceAll_ok hsplice

/-- Nothing is computed if the edits do not fit or a file cannot be read. -/
theorem compute_error {edit : WorkspaceEdit} {s : σ} {err : RenameError}
    (h : compute edit s = .error err) :
    (∃ bad, err = .edit bad) ∨
      ∃ path ∈ edit.groupKeys, ∃ source,
        err = .application path [] source ∧ Store.read s path = .error source := by
  simp only [compute, Except.bind_eq_error, Except.mapError_eq_error] at h
  rcases h with ⟨bad, -, herr⟩ | ⟨-, -, hsplice⟩
  · exact .inl ⟨bad, herr.symm⟩
  · have hkeys : edit.groups.map Prod.fst = edit.groupKeys := by
      simp [WorkspaceEdit.groups, Function.comp_def]
    rw [← hkeys]
    exact spliceAll_error hsplice

/-! ## Writing -/

/-- A failed write comes after writes that went well, and the error lists their files. -/
theorem writeAll_error {written : List Path} {files : List (Path × String)} {s s' : σ}
    {err : RenameError} (h : writeAll written files s = (.error err, s')) :
    ∃ before path text after source,
      files = before ++ (path, text) :: after ∧
      writeAll written before s = (.ok (), s') ∧
      err = .application path (written ++ before.map Prod.fst) source ∧
      Store.write s' path text = .error source := by
  induction files generalizing written s with
  | nil => exact nomatch h
  | cons file files ih =>
    obtain ⟨p, t⟩ := file
    rw [writeAll] at h
    split at h
    · rename_i source hwrite
      cases h
      exact ⟨[], p, t, files, source, rfl, rfl, by simp, hwrite⟩
    -- The first file was written, and counts as one of those before the failure.
    · rename_i s₁ hwrite
      obtain ⟨before, path, text, after, source, rfl, hbefore, herr, hfail⟩ := ih h
      refine ⟨(p, t) :: before, path, text, after, source, rfl, ?_, ?_, hfail⟩
      · rw [writeAll, hwrite]
        exact hbefore
      · rw [herr]
        simp

open PlacedStore

variable {κ ν : Type} [DecidableEq κ] [PlacedStore σ κ ν]

/-- After all files were written, each place holds the text of the last file put there. A place
    where no file was put holds what it held before. -/
theorem writeAll_ok {written : List Path} {files : List (Path × String)} {s s' : σ}
    (hpresent : ∀ file ∈ files, Present s file.1)
    (h : writeAll written files s = (.ok (), s')) (k : κ) :
    match (files.filter fun file => place? s file.1 = some k).getLast? with
    | none => look s' k = look s k
    | some file => look s' k = some (ofText σ file.2) := by
  induction files generalizing written s with
  | nil =>
    cases h
    rfl
  | cons file files ih =>
    obtain ⟨p, t⟩ := file
    rw [writeAll] at h
    split at h
    · exact nomatch h
    · rename_i s₁ hwrite
      have hp := hpresent (p, t) List.mem_cons_self
      have hrest : ∀ file ∈ files, Present s₁ file.1 := fun file hfile =>
        hp.write (hpresent file (List.mem_cons_of_mem _ hfile)) hwrite
      obtain ⟨k₁, hplace, hsome⟩ := hp
      have ih := ih hrest h
      simp only [place_write hwrite hplace hsome] at ih
      -- A later file at the place decides; only where there is none does this one matter.
      by_cases hk : place? s p = some k
      · cases hplace.symm.trans hk
        rw [List.filter_cons_of_pos (by simpa using hk), List.getLast?_cons]
        cases hlast : (files.filter fun file => place? s file.1 = some k).getLast? with
        | some last =>
          rw [hlast] at ih
          exact ih
        | none =>
          rw [hlast] at ih
          exact ih.trans (look_write hwrite hplace hsome)
      · have hne : k ≠ k₁ := fun heq => hk (heq ▸ hplace)
        rw [List.filter_cons_of_neg (by simpa using hk)]
        cases hlast : (files.filter fun file => place? s file.1 = some k).getLast? with
        | some last =>
          rw [hlast] at ih
          exact ih
        | none =>
          rw [hlast] at ih
          exact ih.trans (look_write_ne hwrite hplace hsome hne)

omit [DecidableEq κ] in
/-- Files that were spliced are there, since they were read. -/
theorem present_of_spliced {edit : WorkspaceEdit} {files : List (Path × String)} {s : σ}
    (hspliced : ∀ file ∈ files, SplicedFrom (Store.read s) edit file) :
    ∀ file ∈ files, Present s file.1 := by
  intro file hfile
  obtain ⟨old, hread, -⟩ := hspliced file hfile
  exact present_of_read hread

/-- After spliced files were written, each place holds what the edits of the last file put there
    make of its bytes. -/
theorem writeAll_replaced {edit : WorkspaceEdit} {written : List Path}
    {files : List (Path × String)} {s s' : σ}
    (hspliced : ∀ file ∈ files, SplicedFrom (Store.read s) edit file)
    (h : writeAll written files s = (.ok (), s')) (k : κ) :
    match ((files.map Prod.fst).filter fun p => place? s p = some k).getLast? with
    | none => look s' k = look s k
    | some p => ∃ old new, look s k = some old ∧ look s' k = some new ∧
        Splice.Replaced (TextEdit.replacements (edit.editsFor p)) (bytes σ old) (bytes σ new) := by
  have hlook := writeAll_ok (present_of_spliced hspliced) h k
  rw [List.filter_map, List.getLast?_map]
  simp only [Function.comp_def]
  cases hlast : (files.filter fun file => place? s file.1 = some k).getLast? with
  | none =>
    rw [hlast] at hlook
    exact hlook
  | some file =>
    rw [hlast] at hlook
    obtain ⟨hfile, hplace⟩ := List.mem_filter.mp (List.mem_of_getLast? hlast)
    have hplace : place? s file.1 = some k := by simpa using hplace
    obtain ⟨text, hread, horder, hbytes⟩ := hspliced file hfile
    -- The text that was spliced is what the place held.
    obtain ⟨k', old, hplace', hold, heq⟩ := read_ok hread
    cases hplace.symm.trans hplace'
    rw [← heq] at horder hbytes
    refine ⟨old, ofText σ file.2, hold, hlook, horder, ?_⟩
    rw [bytes_ofText]
    exact hbytes

omit [DecidableEq κ] [PlacedStore σ κ ν] in
/-- An edit that is carried out was computed, and then its files were written. -/
theorem run_eq_ok {edit : WorkspaceEdit} {s s' : σ} {result : ApplyResult}
    (h : run edit false s = (.ok result, s')) :
    compute edit s = .ok result.files ∧ writeAll [] result.files s = (.ok (), s') := by
  unfold run at h
  split at h
  · exact nomatch h
  · rename_i files hcompute
    rw [if_neg (by decide)] at h
    split at h
    · exact nomatch h
    · rename_i s₁ hwrite
      cases h
      exact ⟨hcompute, hwrite⟩

omit [DecidableEq κ] [PlacedStore σ κ ν] in
/-- An edit of one file is carried out by one read, one splice and one write. -/
theorem run_of_oneGroup {edit : WorkspaceEdit} {path : Path} {edits : List TextEdit} {s s' : σ}
    {text out : String} (hvalid : edit.validate = .ok ()) (hgroups : edit.groups = [(path, edits)])
    (hread : Store.read s path = .ok text) (hsplice : Splice.apply path text edits = .ok out)
    (hwrite : Store.write s path out = .ok s') :
    run edit false s = (.ok { files := [(path, out)], written := true }, s') := by
  have hcompute : compute edit s = .ok [(path, out)] := by
    rw [compute, hvalid, hgroups]
    simp only [spliceAll, hread, hsplice, Except.mapError_ok, Except.ok_bind]
    rfl
  simp only [run, hcompute, writeAll, hwrite]
  rfl

end

end Apply

/-! ## Stores in memory -/

/-- The text of a file in `s'` is its text in `s` with all spans replaced at once. -/
def MemoryStore.ReplacedIn (s s' : MemoryStore) (f : Path) (replacements : List (Span × String)) :
    Prop :=
  ∃ old new, s.content? f = some old ∧ s'.content? f = some new ∧
    Splice.Replaced replacements (Text.bytes old) (Text.bytes new)

namespace Apply

/-- Writing does not change which writes fail. -/
theorem writeAll_failing {written : List Path} {files : List (Path × String)}
    {s s' : MemoryStore} (h : writeAll written files s = (.ok (), s')) :
    s'.failing = s.failing := by
  induction files generalizing written s with
  | nil =>
    cases h
    rfl
  | cons file files ih =>
    rw [writeAll] at h
    split at h
    · exact nomatch h
    · rename_i s₁ hwrite
      rw [ih h, (MemoryStore.write_ok hwrite).2]

/-- After spliced files were written, a file that is one of them holds its splice. -/
theorem content?_writeAll_mem {edit : WorkspaceEdit} {written : List Path}
    {files : List (Path × String)} {s s' : MemoryStore}
    (hspliced : ∀ file ∈ files, SplicedFrom (Store.read s) edit file)
    (h : writeAll written files s = (.ok (), s')) {f : Path}
    (hf : (files.map Prod.fst).any f.same = true) :
    s.ReplacedIn s' f (TextEdit.replacements (edit.editsFor f)) := by
  have hlook := writeAll_replaced hspliced h f.components
  split at hlook
  -- Some file was put into the place, namely the given one.
  · rename_i hnone
    obtain ⟨q, hq, hsame⟩ := List.any_eq_true.mp hf
    have hmem : q ∈ (files.map Prod.fst).filter fun p =>
        PlacedStore.place? s p = some f.components :=
      List.mem_filter.mpr ⟨hq, decide_eq_true (congrArg some (Path.same_eq_true.mp hsame).symm)⟩
    rw [List.getLast?_eq_none_iff.mp hnone] at hmem
    exact absurd hmem List.not_mem_nil
  · rename_i q hlast
    obtain ⟨-, hplace⟩ := List.mem_filter.mp (List.mem_of_getLast? hlast)
    have hsame : f.same q = true :=
      Path.same_eq_true.mpr (Option.some.inj (of_decide_eq_true hplace)).symm
    rw [edit.editsFor_congr hsame]
    exact hlook

/-- After files were written, a file that is none of them holds what it held before. -/
theorem content?_writeAll_not_mem {edit : WorkspaceEdit} {written : List Path}
    {files : List (Path × String)} {s s' : MemoryStore}
    (hspliced : ∀ file ∈ files, SplicedFrom (Store.read s) edit file)
    (h : writeAll written files s = (.ok (), s')) {f : Path}
    (hf : (files.map Prod.fst).any f.same = false) : s'.content? f = s.content? f := by
  have hlook := writeAll_replaced hspliced h f.components
  split at hlook
  · exact hlook
  -- A file put into the place would be the same as the given one.
  · rename_i q hlast
    obtain ⟨hq, hplace⟩ := List.mem_filter.mp (List.mem_of_getLast? hlast)
    have hsame : f.same q = true :=
      Path.same_eq_true.mpr (Option.some.inj (of_decide_eq_true hplace)).symm
    rw [List.any_eq_false] at hf
    exact absurd hsame (hf q hq)

end Apply
end HotRename
