import HotRename.Proofs.Rename.Apply
import HotRename.Proofs.Store.Disk

/-!
# Overwritten files

Files are only written after they were read, so writing makes no file and moves no place: a store
after any number of writes is the store before them with some of its files overwritten. This holds
whether all writes went well or one of them failed. On disk a path is read and written at what it
resolves to, which lies under the root. Main statements:

* `writeAll_overwritten`  what a row of writes may change
* `run_overwritten`       what applying an edit may change
* `resolve_under`         a path resolves to one under the root
-/

namespace HotRename

namespace PlacedStore

variable {σ κ ν : Type} [Store σ] [PlacedStore σ κ ν] {named : Path → Prop} {s s₁ s' : σ}

/-- `s'` has the places and the files of `s`, and only files that a path of the given kind names
    may hold something else. -/
structure Overwritten (named : Path → Prop) (s s' : σ) : Prop where
  place : ∀ q, place? s' q = place? s q
  isSome : ∀ k, (look s' k).isSome = (look s k).isSome
  changed : ∀ k, look s' k ≠ look s k → ∃ p, named p ∧ place? s p = some k

namespace Overwritten

/-- A store in which nothing was written. -/
theorem refl (named : Path → Prop) (s : σ) : Overwritten named s s where
  place _ := rfl
  isSome _ := rfl
  changed _ h := absurd rfl h

/-- Writes one after the other. -/
theorem trans (h : Overwritten named s s₁) (h' : Overwritten named s₁ s') :
    Overwritten named s s' where
  place q := (h'.place q).trans (h.place q)
  isSome k := (h'.isSome k).trans (h.isSome k)
  changed k hne := by
    by_cases hk : look s' k = look s₁ k
    · rw [hk] at hne
      exact h.changed k hne
    · -- Places do not move, so the second change is to a file that was named at the start.
      obtain ⟨p, hp, hplace⟩ := h'.changed k hk
      exact ⟨p, hp, (h.place p).symm.trans hplace⟩

/-- More files may be named than were written. -/
theorem mono {named' : Path → Prop} (h : Overwritten named s s')
    (hsub : ∀ p, named p → named' p) : Overwritten named' s s' where
  place := h.place
  isSome := h.isSome
  changed k hne := by
    obtain ⟨p, hp, hplace⟩ := h.changed k hne
    exact ⟨p, hsub p hp, hplace⟩

/-- No file is gone. -/
theorem present {p : Path} (h : Overwritten named s s') (hp : Present s p) : Present s' p := by
  obtain ⟨k, hplace, hsome⟩ := hp
  exact ⟨k, (h.place p).trans hplace, (h.isSome k).trans hsome⟩

end Overwritten

/-- A write to a file that is there overwrites this file. -/
theorem overwritten_write {p : Path} {text : String} (hp : Present s p)
    (h : Store.write s p text = .ok s') : Overwritten (· = p) s s' := by
  obtain ⟨k, hplace, hsome⟩ := hp
  refine ⟨place_write h hplace hsome, fun k' => ?_, fun k' hne => ?_⟩
  · by_cases hk : k' = k
    · rw [hk, look_write h hplace hsome, hsome]
      rfl
    · rw [look_write_ne h hplace hsome hk]
  -- Only the place of the path has changed.
  · by_cases hk : k' = k
    · exact ⟨p, rfl, hk ▸ hplace⟩
    · exact absurd (look_write_ne h hplace hsome hk) hne

end PlacedStore

namespace Apply

open PlacedStore

variable {σ κ ν : Type} [Store σ] [PlacedStore σ κ ν]

/-- Writing files that are there overwrites some of them: all, or those in front of the one that
    could not be written. -/
theorem writeAll_overwritten (written : List Path) {files : List (Path × String)} {s : σ}
    (hpresent : ∀ file ∈ files, Present s file.1) :
    Overwritten (· ∈ files.map Prod.fst) s (writeAll written files s).2 := by
  induction files generalizing written s with
  | nil => exact .refl _ s
  | cons file files ih =>
    rw [writeAll]
    split
    · exact .refl _ s
    · rename_i s₁ hwrite
      have hstep := overwritten_write (hpresent file List.mem_cons_self) hwrite
      -- The first write has removed no file, so the others are still there.
      have hrest : ∀ file' ∈ files, Present s₁ file'.1 := fun file' hfile' =>
        hstep.present (hpresent file' (List.mem_cons_of_mem _ hfile'))
      have hhead : Overwritten (· ∈ (file :: files).map Prod.fst) s s₁ :=
        hstep.mono fun p hp => by
          rw [hp]
          exact List.mem_cons_self
      exact hhead.trans ((ih _ hrest).mono fun p hp => List.mem_cons_of_mem _ hp)

/-- A path of an edit under which a file is read. -/
def ReadFor (edit : WorkspaceEdit) (s : σ) (p : Path) : Prop :=
  (∃ a ∈ edit.edits, a.path = p) ∧ ∃ text, Store.read s p = .ok text

omit [PlacedStore σ κ ν] in
/-- What a run leaves is what its writes leave, whether they went well or not. -/
theorem run_false_snd {edit : WorkspaceEdit} {s : σ} {files : List (Path × String)}
    (h : compute edit s = .ok files) : (run edit false s).2 = (writeAll [] files s).2 := by
  rw [run, h]
  dsimp only
  rw [if_neg (by decide)]
  rcases writeAll [] files s with ⟨_ | _, s'⟩ <;> rfl

/-- Applying an edit overwrites files that it reads, and no others. -/
theorem run_overwritten (edit : WorkspaceEdit) (s : σ) :
    Overwritten (ReadFor edit s) s (run edit false s).2 := by
  cases hcompute : compute edit s with
  | error err =>
    rw [run, hcompute]
    exact .refl _ s
  | ok files =>
    obtain ⟨hkeys, hspliced⟩ := compute_ok hcompute
    rw [run_false_snd hcompute]
    -- The written files were spliced from what was read.
    refine (writeAll_overwritten [] (present_of_spliced hspliced)).mono fun p hp => ?_
    obtain ⟨file, hfile, rfl⟩ := List.mem_map.mp hp
    obtain ⟨old, hread, -⟩ := hspliced file hfile
    rw [hkeys] at hp
    exact ⟨WorkspaceEdit.exists_path_eq_of_mem_groupKeys hp, old, hread⟩

end Apply

/-! ## Paths under the root -/

/-- The path goes on from the base, and neither up nor back to the root of the file system. -/
def Path.Under (p base : Path) : Prop :=
  ∃ rest, p.components = base.components ++ rest ∧ .root ∉ rest ∧ .up ∉ rest

namespace Disk

/-- What a path resolves to lies under the root. -/
theorem resolve_under {root p full : Path} (h : resolve root p = .ok full) : full.Under root := by
  obtain ⟨rest, -, hroot, hup, rfl⟩ := resolve_eq_ok_iff.mp h
  -- What is left of the path below the root is relative.
  have hrel : rest.isAbsolute = false :=
    Bool.eq_false_iff.mpr fun habs => hroot (Path.isAbsolute_iff.mp habs)
  by_cases hempty : root.text = ""
  · -- Under an empty root a path keeps the `.` that it may start with.
    refine ⟨rest.components, ?_, hroot, hup⟩
    rw [show root = ⟨""⟩ by rw [← hempty], Path.components_join_empty]
    rfl
  · refine ⟨rest.steps, Path.components_join hempty hrel, ?_, ?_⟩
    · rw [Path.steps_eq_filter]
      exact fun hmem => hroot (List.mem_filter.mp hmem).1
    · rw [Path.steps_eq_filter]
      exact fun hmem => hup (List.mem_filter.mp hmem).1

/-- A path that can be read names the location of what it resolves to. -/
theorem locate_of_read {d : Disk} {p : Path} {text : String} {loc : Location}
    (h : d.read p = .ok text) (hloc : d.location? p = some loc) :
    ∃ full, resolve d.root p = .ok full ∧ d.tree.locate full = .ok loc := by
  obtain ⟨full, hfull, hread⟩ := Except.bind_eq_ok.mp h
  obtain ⟨loc', hlocate, -⟩ := Except.bind_eq_ok.mp (Except.mapError_eq_ok.mp hread)
  cases (location?_of_locate hfull hlocate).symm.trans hloc
  exact ⟨full, hfull, hlocate⟩

end Disk
end HotRename
