import HotRename.Proofs.Except
import HotRename.Proofs.Path.Join
import HotRename.Proofs.Path.Order
import HotRename.Proofs.Store.Placed
import HotRename.Store.Disk

/-!
# Places on disk

Writing to a file that is there moves no directory, so every path leads to the same location as
before. Which location that is depends on the components of the path: its spelling matters only for
whether the system takes it. With that the disk is a store with places, and its places are
locations.
-/

namespace HotRename

namespace FileTree

variable {t : FileTree} {loc : Location} {content : StoredFile}

/-- Replacing the entry at a location changes what is found there and nowhere else. -/
theorem lookup_map_replace (entries : List (Location × Entry)) (loc : Location) (value : Entry)
    (l : Location) :
    (entries.map fun entry => if entry.1 = loc then (loc, value) else entry).lookup l =
      if l = loc then (entries.lookup loc).map fun _ => value else entries.lookup l := by
  induction entries with
  | nil => simp
  | cons entry entries ih =>
    obtain ⟨key, old⟩ := entry
    rw [List.map_cons]
    -- The head is replaced or not, and is what is looked up or not.
    by_cases hkey : key = loc
    · subst hkey
      by_cases hl : l = key
      · simp [hl]
      · have hbeq : (l == key) = false := beq_eq_false_iff_ne.mpr hl
        simp [List.lookup_cons, hl, hbeq, ih]
    · by_cases hl : l = loc
      · subst hl
        have hbeq : (l == key) = false := beq_eq_false_iff_ne.mpr (Ne.symm hkey)
        simp [List.lookup_cons, hkey, hbeq, ih]
      · simp [List.lookup_cons, hkey, hl, ih]

/-- What is put at a location is found there, and nothing else changes. -/
theorem lookup_put (entries : List (Location × Entry)) (loc : Location) (content : StoredFile)
    (l : Location) :
    (put entries loc content).lookup l =
      if l = loc then some (.file content) else entries.lookup l := by
  unfold put
  split
  · rename_i hsome
    obtain ⟨old, hold⟩ := Option.isSome_iff_exists.mp hsome
    rw [lookup_map_replace, hold]
    rfl
  -- A new entry stands behind all others, none of which is at its location.
  · rename_i hnone
    rw [Option.not_isSome_iff_eq_none] at hnone
    rw [List.lookup_append]
    by_cases hl : l = loc
    · subst hl
      simp [hnone]
    · have hbeq : (l == loc) = false := beq_eq_false_iff_ne.mpr hl
      simp [hl, List.lookup_cons, hbeq]

/-- A file was put in the place of another one. -/
theorem file?_put (l : Location) :
    file? { t with entries := put t.entries loc content } l =
      if l = loc then some content else t.file? l := by
  unfold file?
  rw [lookup_put]
  by_cases hl : l = loc
  · rw [if_pos hl, if_pos hl]
  · rw [if_neg hl, if_neg hl]

/-- Replacing a file leaves the directories as they are. -/
theorem isDirectory_put (hfile : (t.file? loc).isSome) (hloc : t.isDirectory loc = false)
    (l : Location) :
    isDirectory { t with entries := put t.entries loc content } l = t.isDirectory l := by
  have hsome : (t.entries.lookup loc).isSome := by
    unfold file? at hfile
    split at hfile
    · rename_i hlookup
      rw [hlookup]
      rfl
    · exact nomatch hfile
  -- No directory is listed at the location, or writing there would have failed.
  have hentry : ∀ entry ∈ t.entries, entry.1 = loc → entry.2 ≠ .directory := by
    intro entry hentry hkey hdir
    have hany : t.isDirectory loc = true := by
      rw [isDirectory, Bool.or_eq_true, List.any_eq_true]
      exact .inr ⟨entry, hentry, by rw [hdir, hkey]; simp⟩
    rw [hloc] at hany
    exact nomatch hany
  unfold isDirectory put
  rw [if_pos hsome, List.any_map, Bool.eq_iff_iff, Bool.or_eq_true, Bool.or_eq_true,
    List.any_eq_true, List.any_eq_true]
  -- The entries at the location are files before and after, so they are around the same locations.
  refine or_congr_right (exists_congr fun entry => and_congr_right fun hmem => ?_)
  rw [Function.comp_apply]
  by_cases hkey : entry.1 = loc
  · obtain ⟨key, value⟩ := entry
    cases value with
    | directory => exact absurd rfl (hentry _ hmem hkey)
    | file old => rw [if_pos hkey, ← hkey]
  · rw [if_neg hkey]

/-- Whether there is a directory at a location does not change either. -/
theorem checkDirectory_put (hfile : (t.file? loc).isSome) (hloc : t.isDirectory loc = false)
    (l : Location) :
    checkDirectory { t with entries := put t.entries loc content } l = t.checkDirectory l := by
  have hsome : (file? { t with entries := put t.entries loc content } l).isSome =
      (t.file? l).isSome := by
    rw [file?_put]
    split
    · rename_i heq
      rw [heq, hfile]
      rfl
    · rfl
  rw [checkDirectory, checkDirectory, isDirectory_put hfile hloc, hsome]

/-- So paths lead where they led. -/
theorem follow_put (hfile : (t.file? loc).isSome) (hloc : t.isDirectory loc = false)
    (l : Location) (components : List Component) :
    follow { t with entries := put t.entries loc content } l components =
      t.follow l components := by
  induction components generalizing l with
  | nil => rfl
  | cons c rest ih =>
    cases c <;> simp only [follow, checkDirectory_put hfile hloc, ih]

/-- A path can be that of a file if it is not empty, not too long and free of the null
    character. -/
theorem checkSpelling_ok {p : Path} (hnul : '\x00' ∉ p.text.toList)
    (hsize : p.text.utf8ByteSize ≤ maxPathBytes) (hne : p.text ≠ "") :
    checkSpelling p = .ok () := by
  have hcontains : p.text.contains '\x00' = false := by simpa using hnul
  rw [checkSpelling, hcontains, if_neg (by simp), if_neg (by omega), if_neg hne]

/-- A path that may be that of a file is located where it leads. -/
theorem locate_of_follow {p : Path} (hspelling : checkSpelling p = .ok ())
    (hdemands : demandsDirectory p = false)
    (hfollow : t.follow t.workingDirectory p.components = .ok loc) : t.locate p = .ok loc := by
  rw [locate, hspelling, hfollow, hdemands]
  rfl

end FileTree

namespace Disk

/-- What is left of a path below the root is joined to the root, if it leads neither up nor to the
    root of the file system. -/
theorem resolve_eq_ok_iff {root p full : Path} :
    resolve root p = .ok full ↔
      ∃ rest, (if p.isAbsolute then Path.below? root p else some p) = some rest ∧
        .root ∉ rest.components ∧ .up ∉ rest.components ∧ root.join rest = full := by
  unfold resolve
  split
  · rename_i hnone
    simp [hnone]
  · rename_i rest hsome
    -- What is checked is that neither of the two components is there.
    have hcheck : (rest.components.any fun c => c = .root || c = .up) = true ↔
        .root ∈ rest.components ∨ .up ∈ rest.components := by
      simp only [List.any_eq_true, Bool.or_eq_true, decide_eq_true_eq]
      constructor
      · rintro ⟨c, hc, rfl | rfl⟩
        · exact .inl hc
        · exact .inr hc
      · rintro (h | h)
        · exact ⟨_, h, .inl rfl⟩
        · exact ⟨_, h, .inr rfl⟩
    simp only [hsome, Option.some.injEq, exists_eq_left']
    split
    · rename_i hescapes
      simp only [reduceCtorEq, false_iff]
      rintro ⟨hroot, hup, -⟩
      exact (hcheck.mp hescapes).elim hroot hup
    · rename_i hstays
      rw [hcheck, not_or] at hstays
      simp [hstays]

/-- The components of what a path with the given components resolves to. -/
def resolved (root : Path) (components : List Component) : Option (List Component) := do
  let rest ←
    if .root ∈ components then
      if root.isAbsolute && root.components.isPrefixOf components then
        some (components.drop root.components.length)
      else none
    else some components
  if rest.any fun c => c = .root || c = .up then none
  else some (if root.text = "" then rest else root.components ++ rest.filter Component.isStep)

/-- The check of what is left of a path, by its components. -/
theorem check_components (root rest : Path) {err : StorageError} :
    Option.map Path.components (Except.toOption
      (if rest.components.any fun c => c = .root || c = .up then .error err
        else .ok (root.join rest))) =
      if rest.components.any fun c => c = .root || c = .up then none
      else some (if root.text = "" then rest.components
        else root.components ++ rest.components.filter Component.isStep) := by
  split
  · rfl
  · rename_i hcheck
    -- What passes the check does not start at the root, so it is joined to the base.
    have hrel : rest.isAbsolute = false := by
      rw [Bool.eq_false_iff, ne_eq, Path.isAbsolute_iff]
      intro hroot
      exact hcheck (List.any_eq_true.mpr ⟨_, hroot, rfl⟩)
    rw [← Path.steps_eq_filter]
    show some (root.join rest).components = _
    split
    · rename_i hempty
      rw [show root = ⟨""⟩ by rw [← hempty], Path.components_join_empty]
    · rename_i hne
      rw [Path.components_join hne hrel]

/-- What a path resolves to is decided by its components. -/
theorem resolve_components (root p : Path) :
    (resolve root p).toOption.map Path.components = resolved root p.components := by
  unfold resolve resolved
  by_cases habs : p.isAbsolute = true
  · rw [if_pos habs, if_pos (Path.isAbsolute_iff.mp habs)]
    -- The prefix is compared by components, too.
    by_cases hbelow : (root.isAbsolute && root.components.isPrefixOf p.components) = true
    · rw [if_pos hbelow]
      obtain ⟨hroot, hpre⟩ := Bool.and_eq_true_iff.mp hbelow
      obtain ⟨rest, hrest, hcomponents⟩ := Path.below?_eq hroot (List.isPrefixOf_iff_prefix.mp hpre)
      rw [hrest, ← hcomponents]
      exact check_components root rest
    · rw [if_neg hbelow, Path.below?, if_neg hbelow]
      rfl
  · rw [if_neg habs, if_neg (fun h => habs (Path.isAbsolute_iff.mpr h))]
    exact check_components root p

/-- The location that a path leads to. -/
def location? (d : Disk) (p : Path) : Option Location :=
  (resolve d.root p).toOption.bind fun full =>
    (d.tree.follow d.tree.workingDirectory full.components).toOption

/-- Spellings of one path lead to one location. -/
theorem location?_congr {d : Disk} {p q : Path} (h : p.same q = true) :
    d.location? p = d.location? q := by
  have hbind : ∀ p, d.location? p = (resolved d.root p.components).bind fun components =>
      (d.tree.follow d.tree.workingDirectory components).toOption := by
    intro p
    rw [← resolve_components, Option.bind_map]
    rfl
  rw [hbind, hbind, Path.same_eq_true.mp h]

/-- What is located lies at the location of the path. -/
theorem location?_of_locate {d : Disk} {p full : Path} {loc : Location}
    (hfull : resolve d.root p = .ok full) (hloc : d.tree.locate full = .ok loc) :
    d.location? p = some loc := by
  simp only [FileTree.locate, Except.bind_eq_ok] at hloc
  obtain ⟨-, -, loc', hfollow, hloc⟩ := hloc
  -- A path that demands a directory is refused or leads where it leads without the demand.
  have heq : loc' = loc := by
    split at hloc
    · obtain ⟨-, -, hloc⟩ := Except.bind_eq_ok.mp hloc
      cases hloc
      rfl
    · cases hloc
      rfl
  rw [location?, hfull, ← heq]
  exact Except.toOption_eq_some.mpr hfollow

/-- What is read is the text at the location of the path. -/
theorem read_ok {d : Disk} {p : Path} {text : String} (h : d.read p = .ok text) :
    ∃ loc file, d.location? p = some loc ∧ d.tree.file? loc = some file ∧
      file.bytes = text.toUTF8 := by
  simp only [read, FileTree.readText, Except.bind_eq_ok, Except.mapError_eq_ok] at h
  obtain ⟨full, hfull, loc, hloc, h⟩ := h
  split at h
  · rename_i file hfile
    split at h
    · cases h
    · split at h
      · rename_i text' htext
        cases h
        refine ⟨loc, file, location?_of_locate hfull hloc, hfile, ?_⟩
        -- Only bytes that are those of a text are read.
        unfold String.fromUTF8? at htext
        split at htext
        · cases htext
          rfl
        · cases htext
      · cases h
  · cases h

/-- A write puts the text at the location of the path, at which no directory is. -/
theorem write_ok {d d' : Disk} {p : Path} {text : String} (h : d.write p text = .ok d') :
    ∃ loc, d.location? p = some loc ∧ d.tree.isDirectory loc = false ∧
      d' = { d with tree := { d.tree with
        entries := FileTree.put d.tree.entries loc { bytes := text.toUTF8 } } } := by
  simp only [write, FileTree.writeText, Except.bind_eq_ok, Except.mapError_eq_ok] at h
  obtain ⟨full, hfull, tree, ⟨loc, hloc, h⟩, hd⟩ := h
  cases hd
  refine ⟨loc, location?_of_locate hfull hloc, ?_⟩
  split at h
  · exact nomatch h
  -- Neither a directory nor a fault was in the way.
  · rename_i hdir
    refine ⟨Bool.eq_false_iff.mpr hdir, ?_⟩
    split at h
    · exact nomatch h
    · cases h
      rfl

instance : PlacedStore Disk Location StoredFile where
  place? := location?
  look d := d.tree.file?
  bytes file := file.bytes.data.toList
  ofText text := { bytes := text.toUTF8 }
  bytes_ofText _ := rfl
  read_ok h := by
    obtain ⟨loc, file, hloc, hfile, hbytes⟩ := read_ok h
    exact ⟨loc, file, hloc, hfile, by rw [hbytes]; rfl⟩
  look_write h hplace _ := by
    obtain ⟨loc, hloc, -, rfl⟩ := write_ok h
    cases hplace.symm.trans hloc
    rw [FileTree.file?_put, if_pos rfl]
  look_write_ne h hplace _ hne := by
    obtain ⟨loc, hloc, -, rfl⟩ := write_ok h
    cases hplace.symm.trans hloc
    rw [FileTree.file?_put, if_neg hne]
  place_write h hplace hsome q := by
    obtain ⟨loc, hloc, hdir, rfl⟩ := write_ok h
    cases hplace.symm.trans hloc
    simp only [location?, FileTree.follow_put hsome hdir]

end Disk
end HotRename
