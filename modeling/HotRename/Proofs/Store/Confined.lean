import HotRename.Proofs.Store.Disk

/-!
# Paths that a store takes

A store under a root takes the relative paths that do not go up and the absolute ones that go on
from its root by names. Each of them resolves to the root followed by names, and where the root is
absolute, what it resolves to is taken too and stands for the same place. Main statements:

* `resolve_absolute`       an absolute path that is taken keeps its components
* `resolve_names`          what a path resolves to is the root followed by names
* `components_of_resolve`  under an absolute root that is again a path below it
* `resolve_confined`       which paths are taken, and what they resolve to
-/

namespace HotRename

namespace Path

/-- The components of a path other than a `.` at its start. -/
def withoutDot (p : Path) : List Component :=
  p.components.filter (· ≠ .here)

/-- Only a relative path has a `.` among its components. -/
theorem withoutDot_of_isAbsolute {p : Path} (h : p.isAbsolute = true) :
    p.withoutDot = p.components := by
  rw [withoutDot, List.filter_eq_self, components_eq_root_cons h, steps_eq_filter]
  intro c hc
  cases c <;> simp_all [Component.isStep]

/-- A relative path does not start at the root of the file system. -/
theorem root_not_mem {p : Path} (h : p.isAbsolute = false) : .root ∉ p.components := by
  intro hmem
  rw [isAbsolute_iff.mpr hmem] at h
  cases h

/-- The steps of a relative path are its components without a `.` at the start. -/
theorem steps_eq_withoutDot {p : Path} (h : p.isAbsolute = false) : p.steps = p.withoutDot := by
  rw [steps_eq_filter, withoutDot]
  refine List.filter_congr fun c hc => ?_
  have hroot : c ≠ .root := fun hc' => root_not_mem h (hc' ▸ hc)
  cases c <;> simp_all [Component.isStep]

/-- Joining a relative path appends its components to those of the base. -/
theorem withoutDot_join {base rest : Path} (h : rest.isAbsolute = false) :
    (base.join rest).withoutDot = base.withoutDot ++ rest.withoutDot := by
  by_cases hbase : base.text = ""
  · have hempty : base = ⟨""⟩ := by rw [← hbase]
    subst hempty
    rw [withoutDot, components_join_empty]
    rfl
  · rw [withoutDot, components_join hbase h, List.filter_append, steps_eq_withoutDot h, withoutDot,
      List.filter_filter]
    simp [withoutDot]

/-- Components that lead neither up nor to the root of the file system are names. -/
theorem exists_names {components : List Component} (hroot : .root ∉ components)
    (hup : .up ∉ components) :
    ∃ names : List String, components.filter (· ≠ .here) = names.map .name := by
  induction components with
  | nil => exact ⟨[], rfl⟩
  | cons c components ih =>
    rw [List.mem_cons, not_or] at hroot hup
    obtain ⟨names, hnames⟩ := ih hroot.2 hup.2
    cases c with
    | root => exact absurd rfl hroot.1
    | up => exact absurd rfl hup.1
    | here => exact ⟨names, by simpa using hnames⟩
    | name text => exact ⟨text :: names, by simpa using hnames⟩

end Path

namespace Disk

open HotRename.Path

variable {root p full : Path}

/-- A path that is refused is the one that the error names. -/
theorem resolve_eq_error {err : StorageError} (h : resolve root p = .error err) :
    err = .forbidden p := by
  unfold resolve at h
  split at h
  · cases h
    rfl
  · split at h
    · cases h
      rfl
    · cases h

/-- A relative path is taken as it is, if it does not go up. -/
theorem resolve_relative_iff (hp : p.isAbsolute = false) :
    resolve root p = .ok full ↔ .up ∉ p.components ∧ root.join p = full := by
  simp [resolve_eq_ok_iff, hp, root_not_mem hp]

/-- An absolute path that is taken goes on from the root by names, and keeps its components. -/
theorem resolve_absolute (hp : p.isAbsolute = true) (h : resolve root p = .ok full) :
    full.components = p.components ∧
      ∃ names : List String, p.components = root.components ++ names.map .name := by
  obtain ⟨rest, hrest, hroot, hup, rfl⟩ := resolve_eq_ok_iff.mp h
  rw [if_pos hp] at hrest
  obtain ⟨hbase, hcomponents⟩ := below?_eq_some hrest
  have hrel : rest.isAbsolute = false :=
    Bool.eq_false_iff.mpr fun habs => hroot (isAbsolute_iff.mp habs)
  -- What is left has no `.`, since there is none in an absolute path.
  have hplain : rest.withoutDot = rest.components := by
    have hall := withoutDot_of_isAbsolute hp
    rw [withoutDot, List.filter_eq_self, hcomponents] at hall
    exact List.filter_eq_self.mpr fun c hc => hall c (List.mem_append_right _ hc)
  have hne : root.text ≠ "" := by
    intro hempty
    rw [isAbsolute, hempty] at hbase
    cases hbase
  refine ⟨?_, ?_⟩
  · rw [components_join hne hrel, steps_eq_withoutDot hrel, hplain, hcomponents]
  · obtain ⟨names, hnames⟩ := exists_names hroot hup
    refine ⟨names, ?_⟩
    rw [hcomponents, ← hnames]
    exact congrArg _ hplain.symm

/-- An absolute path is taken if it goes on from the root by names. -/
theorem exists_resolve_of_names {names : List String} (hp : p.isAbsolute = true)
    (hnames : p.components = root.components ++ names.map .name) :
    ∃ full, resolve root p = .ok full := by
  -- The root of the store is where the path has its root.
  have hbase : root.isAbsolute = true := by
    have hmem := isAbsolute_iff.mp hp
    rw [hnames] at hmem
    exact isAbsolute_iff.mpr (by simpa using hmem)
  obtain ⟨rest, hrest, hcomponents⟩ := below?_eq hbase ⟨names.map .name, hnames.symm⟩
  rw [hnames, List.drop_left] at hcomponents
  exact ⟨_, resolve_eq_ok_iff.mpr ⟨rest, by rw [if_pos hp, hrest], by simp [hcomponents],
    by simp [hcomponents], rfl⟩⟩

/-- What a path resolves to is the root followed by names: those of a relative path, and those that
    an absolute path has behind the root. -/
theorem resolve_names (h : resolve root p = .ok full) :
    ∃ names : List String, full.withoutDot = root.withoutDot ++ names.map .name ∧
      p.withoutDot = (if p.isAbsolute then root.withoutDot else []) ++ names.map .name := by
  by_cases hp : p.isAbsolute = true
  -- An absolute path is cut at the root of the store and joined to it again.
  · obtain ⟨hfull, names, hnames⟩ := resolve_absolute hp h
    have hp' : p.withoutDot = root.withoutDot ++ names.map .name := by
      simp [withoutDot, hnames]
    refine ⟨names, ?_, ?_⟩
    · rw [withoutDot, hfull, ← hp', withoutDot]
    · rw [if_pos hp, hp']
  · have hp : p.isAbsolute = false := Bool.eq_false_iff.mpr hp
    obtain ⟨hup, rfl⟩ := (resolve_relative_iff hp).mp h
    obtain ⟨names, hnames⟩ := exists_names (root_not_mem hp) hup
    change p.withoutDot = _ at hnames
    refine ⟨names, ?_, ?_⟩
    · rw [withoutDot_join hp, hnames]
    · rw [if_neg (by rw [hp]; decide), hnames, List.nil_append]

/-- Under an absolute root, what a path resolves to goes on from the root by names. -/
theorem components_of_resolve (hroot : root.isAbsolute = true) (h : resolve root p = .ok full) :
    full.isAbsolute = true ∧
      ∃ names : List String, full.components = root.components ++ names.map .name := by
  obtain ⟨names, hnames, -⟩ := resolve_names h
  -- The path starts where the root of the store starts.
  have hfull : full.isAbsolute = true := by
    have hmem : .root ∈ root.withoutDot := by
      rw [withoutDot_of_isAbsolute hroot]
      exact isAbsolute_iff.mp hroot
    have hmem' : .root ∈ full.withoutDot := by
      rw [hnames]
      exact List.mem_append_left _ hmem
    exact isAbsolute_iff.mpr (List.mem_filter.mp hmem').1
  rw [withoutDot_of_isAbsolute hfull, withoutDot_of_isAbsolute hroot] at hnames
  exact ⟨hfull, names, hnames⟩

/-- A store under a root takes a path exactly if it is relative and does not go up, or if it is
    absolute and goes on from the root by names. What it resolves to is, but for a `.` at the start,
    the root followed by the names of a relative path, or by those that an absolute path has behind
    the root. Every other path is forbidden. Under an absolute root, what a path resolves to is
    taken as well and resolves to the same path. -/
theorem resolve_confined (root p : Path) :
    ((∃ full, resolve root p = .ok full) ↔
      p.isAbsolute = false ∧ .up ∉ p.components ∨
      p.isAbsolute = true ∧
        ∃ names : List String, p.components = root.components ++ names.map .name) ∧
    (∀ full, resolve root p = .ok full →
      ∃ names : List String, full.withoutDot = root.withoutDot ++ names.map .name ∧
        p.withoutDot = (if p.isAbsolute then root.withoutDot else []) ++ names.map .name) ∧
    (∀ err, resolve root p = .error err → err = .forbidden p) ∧
    (root.isAbsolute = true → ∀ full, resolve root p = .ok full →
      ∃ full', resolve root full = .ok full' ∧ full'.components = full.components) := by
  refine ⟨?_, fun full h => resolve_names h, fun err h => resolve_eq_error h, ?_⟩
  · by_cases hp : p.isAbsolute = true
    · simp only [hp, Bool.true_eq_false, false_and, true_and, false_or]
      constructor
      · rintro ⟨full, h⟩
        exact (resolve_absolute hp h).2
      · rintro ⟨names, hnames⟩
        exact exists_resolve_of_names hp hnames
    · have hp : p.isAbsolute = false := Bool.eq_false_iff.mpr hp
      simp [resolve_relative_iff hp, hp]
  -- What a path resolves to goes on from the root by names, and so is taken again.
  · intro hroot full h
    obtain ⟨hfull, names, hnames⟩ := components_of_resolve hroot h
    obtain ⟨full', hfull'⟩ := exists_resolve_of_names hfull hnames
    exact ⟨full', hfull', (resolve_absolute hfull hfull').1⟩

-- The root may go up itself, and a common start of two spellings is no common root.
example : (resolve ⟨"/r/../s"⟩ ⟨"/r/..//s/./a/"⟩).toOption = some ⟨"/r/../s/a"⟩ ∧
    (resolve ⟨"/r"⟩ ⟨"/rs/a"⟩).toOption = none := by
  decide

end Disk
end HotRename
