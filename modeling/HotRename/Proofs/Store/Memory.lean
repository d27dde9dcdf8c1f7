import HotRename.Proofs.Path.Order
import HotRename.Proofs.Store.Placed
import HotRename.Store.Memory

/-!
# Places of a store in memory

In memory the place of a file is the list of the components of its path, so all spellings of a
path name one place, and different paths name different places.
-/

namespace HotRename.MemoryStore

/-- The text of the first of the files with the given components. -/
def textAt (files : List (Path × String)) (place : List Component) : Option String :=
  (files.find? fun file => place = file.1.components).map Prod.snd

/-- The text of a path is looked up by its components. -/
theorem content?_eq_textAt (s : MemoryStore) (p : Path) :
    s.content? p = textAt s.files p.components := rfl

/-- There is a text for a path exactly if one of the files is at the path. -/
theorem textAt_isSome {files : List (Path × String)} {p : Path} :
    (textAt files p.components).isSome = files.any fun file => p.same file.1 := by
  rw [textAt, Option.isSome_map, List.isSome_find?]
  rfl

/-- The text of one path is replaced, and that of every other path stays. -/
theorem textAt_put (files : List (Path × String)) (p : Path) (text : String)
    (place : List Component) :
    textAt (put files p text) place =
      if place = p.components then some text else textAt files place := by
  unfold put
  split
  · rename_i hany
    -- Replacing a text keeps the path, so the same file is found as before.
    have hkeep : (fun file : Path × String => decide (place = file.1.components)) ∘
        (fun file => if p.same file.1 then (file.1, text) else file) =
          fun file => decide (place = file.1.components) := by
      funext file
      simp only [Function.comp_apply]
      split <;> rfl
    rw [textAt, List.find?_map, hkeep, Option.map_map]
    split
    · rename_i hplace
      subst hplace
      obtain ⟨file, hfile⟩ := Option.isSome_iff_exists.mp (textAt_isSome.trans hany)
      obtain ⟨found, hfound, -⟩ := Option.map_eq_some_iff.mp hfile
      have hsame : p.same found.1 = true := by simpa using List.find?_some hfound
      rw [hfound, Option.map_some, Function.comp_apply, if_pos hsame]
    · rename_i hplace
      rw [textAt]
      cases hfound : files.find? fun file => decide (place = file.1.components) with
      | none => rfl
      | some found =>
        have hcomp : place = found.1.components := by simpa using List.find?_some hfound
        have hne : ¬ p.components = found.1.components := fun h => hplace (hcomp.trans h.symm)
        simp [hne]
  · rename_i hany
    rw [textAt, List.find?_append, Option.map_or]
    split
    · rename_i hplace
      subst hplace
      have hnone : textAt files p.components = none := by
        rw [← Option.isNone_iff_eq_none, ← Option.not_isSome, textAt_isSome]
        simpa using hany
      rw [show (files.find? _).map Prod.snd = none from hnone]
      simp
    · rename_i hplace
      simp [textAt, hplace]

/-- What is read is the text that is stored. -/
theorem read_eq_ok_iff {s : MemoryStore} {p : Path} {text : String} :
    s.read p = .ok text ↔ s.content? p = some text := by
  unfold read
  split <;> simp_all

/-- A write puts its text, and leaves the other parts of the store. -/
theorem write_ok {s s' : MemoryStore} {p : Path} {text : String} (h : s.write p text = .ok s') :
    s'.files = put s.files p text ∧ s'.failing = s.failing := by
  unfold write at h
  split at h
  · exact nomatch h
  · cases h
    exact ⟨rfl, rfl⟩

/-- Whether a write fails is up to its path alone. -/
theorem write_error {s s' : MemoryStore} {p : Path} {text : String} {err : StorageError}
    (hfailing : s'.failing = s.failing) (h : s'.write p text = .error err) (text' : String) :
    s.write p text' = .error err := by
  unfold write at h ⊢
  rw [hfailing] at h
  split at h
  · rename_i hp
    rw [if_pos hp]
    exact h
  · exact nomatch h

instance : PlacedStore MemoryStore (List Component) String where
  place? _ p := some p.components
  look s place := textAt s.files place
  bytes := Text.bytes
  ofText text := text
  bytes_ofText _ := rfl
  read_ok {s p text} h := by
    have hread : s.content? p = some text := read_eq_ok_iff.mp h
    exact ⟨_, text, rfl, hread, rfl⟩
  look_write h hplace _ := by
    cases hplace
    rw [(write_ok h).1, textAt_put, if_pos rfl]
  look_write_ne h hplace _ hne := by
    cases hplace
    rw [(write_ok h).1, textAt_put, if_neg hne]
  place_write _ _ _ _ := rfl

end HotRename.MemoryStore
