import HotRename.Proofs.Edit.Disjoint
import Mathlib.Data.List.Perm.Subperm

/-!
# Overlapping edits

Validation refuses a workspace edit exactly if it has no edits, one that ends before it starts, or
two to one file that overlap. The refusal for an overlap names two such edits, the one that starts
first in front. Main statements:

* `exists_infix_of_checkDisjoint`  the check for overlaps refuses a pair of neighbours
* `holdsBoth_of_infix`             neighbours in a group are two edits of the bag to one file
* `exists_overlap_of_validate`     a refusal for an overlap names two edits that overlap
* `validate_exact`                 which workspace edits are valid, and what is refused
-/

namespace HotRename.WorkspaceEdit

variable {w : WorkspaceEdit} {a b : TextEdit}

/-! ## Two edits of a bag -/

/-- The edits are at different positions of the bag. -/
def HoldsBoth (w : WorkspaceEdit) (a b : TextEdit) : Prop :=
  ∃ i j : Nat, i ≠ j ∧ w.edits[i]? = some a ∧ w.edits[j]? = some b

/-- Two edits that are taken from the bag together were at different positions. -/
theorem HoldsBoth.of_subperm (h : [a, b].Subperm w.edits) : w.HoldsBoth a b := by
  obtain ⟨front, back, hsplit⟩ := List.append_of_mem (h.subset List.mem_cons_self)
  -- When the first edit is taken out, the second one is still there.
  have hb : b ∈ front ++ back := by
    rw [hsplit, List.perm_middle.subperm_left, List.subperm_cons,
      List.singleton_subperm_iff] at h
    exact h
  have ha : w.edits[front.length]? = some a := by
    simp [hsplit]
  rcases List.mem_append.mp hb with hb | hb
  · obtain ⟨j, hj, rfl⟩ := List.getElem_of_mem hb
    refine ⟨front.length, j, by omega, ha, ?_⟩
    rw [hsplit, List.getElem?_append_left hj, List.getElem?_eq_getElem hj]
  · obtain ⟨j, hj, rfl⟩ := List.getElem_of_mem hb
    refine ⟨front.length, front.length + (j + 1), by omega, ha, ?_⟩
    rw [hsplit, List.getElem?_append_right (by omega), Nat.add_sub_cancel_left,
      List.getElem?_cons_succ, List.getElem?_eq_getElem hj]

/-- What does not depend on the order of two edits holds of any two if it holds of each with those
    behind it. -/
theorem pairwise_iff_holdsBoth {R : TextEdit → TextEdit → Prop} (hsymm : ∀ a b, R a b → R b a) :
    w.edits.Pairwise R ↔ ∀ a b, w.HoldsBoth a b → R a b := by
  rw [List.pairwise_iff_getElem]
  constructor
  · rintro h a b ⟨i, j, hij, ha, hb⟩
    obtain ⟨hi, rfl⟩ := List.getElem?_eq_some_iff.mp ha
    obtain ⟨hj, rfl⟩ := List.getElem?_eq_some_iff.mp hb
    rcases Nat.lt_or_gt_of_ne hij with hlt | hgt
    · exact h i j hi hj hlt
    · exact hsymm _ _ (h j i hj hi hgt)
  · intro h i j hi hj hij
    exact h _ _ ⟨i, j, Nat.ne_of_lt hij, List.getElem?_eq_getElem hi, List.getElem?_eq_getElem hj⟩

/-! ## Refusals -/

/-- The check for overlaps refuses a pair of neighbours. -/
theorem exists_infix_of_checkDisjoint {path : Path} {es : List TextEdit} {err : EditError}
    (h : checkDisjoint path es = .error err) :
    ∃ later earlier, [later, earlier] <:+: es ∧ later.start < earlier.stop ∧
      err = .overlap path earlier.span later.span := by
  induction es with
  | nil => cases h
  | cons later es ih =>
    cases es with
    | nil => cases h
    | cons earlier rest =>
      rw [checkDisjoint] at h
      split at h
      · rename_i hlt
        cases h
        exact ⟨later, earlier, ⟨[], rest, rfl⟩, hlt, rfl⟩
      -- The first pair passes, so the refusal is about a later one.
      · obtain ⟨l, e, hinfix, hlt, herr⟩ := ih h
        exact ⟨l, e, hinfix.trans (List.suffix_cons _ _).isInfix, hlt, herr⟩

/-- The groups are refused for one of them. -/
theorem exists_mem_of_checkGroups {groups : List (Path × List TextEdit)} {err : EditError}
    (h : checkGroups groups = .error err) :
    ∃ group ∈ groups, checkDisjoint group.1 group.2 = .error err := by
  induction groups with
  | nil => cases h
  | cons group groups ih =>
    rw [checkGroups] at h
    rcases Except.bind_eq_error.mp h with hfirst | ⟨_, -, hrest⟩
    · exact ⟨group, List.mem_cons_self, hfirst⟩
    · obtain ⟨g, hg, herr⟩ := ih hrest
      exact ⟨g, List.mem_cons_of_mem _ hg, herr⟩

/-- Neighbours in the sorted edits of a file are two edits of the bag to that file. -/
theorem holdsBoth_of_infix {p : Path}
    (h : [a, b] <:+: TextEdit.sortTailFirst (w.editsFor p)) :
    w.HoldsBoth b a ∧ a ∈ w.editsFor p ∧ b ∈ w.editsFor p ∧ a.tailFirst b = true := by
  have hperm := TextEdit.sortTailFirst_perm (w.editsFor p)
  -- Sorting and selecting by file take no edit twice from the bag.
  have hsub : [b, a].Subperm w.edits :=
    (List.Perm.swap a b []).subperm.trans
      (h.sublist.subperm.trans (hperm.subperm.trans List.filter_sublist.subperm))
  have hsorted := (TextEdit.sortTailFirst_pairwise (w.editsFor p)).sublist h.sublist
  exact ⟨.of_subperm hsub, hperm.mem_iff.mp (h.subset (by simp)),
    hperm.mem_iff.mp (h.subset (by simp)), by simpa using hsorted⟩

/-- A refusal for an overlap names two edits of one file that overlap, in the order in which they
    start. -/
theorem exists_overlap_of_validate {path : Path} {first second : Span}
    (h : w.validate = .error (.overlap path first second)) :
    ∃ a b, w.HoldsBoth a b ∧ a.path.same path = true ∧ b.path.same path = true ∧ a.span = first ∧
      b.span = second ∧ ¬ a.Disjoint b ∧ a.start ≤ b.start := by
  unfold validate at h
  split at h
  · cases h
  · split at h
    · cases h
    · rename_i hnone
      have hrange : ∀ e ∈ w.edits, e.start ≤ e.stop := by
        simpa using hnone
      obtain ⟨group, hgroup, herr⟩ := exists_mem_of_checkGroups h
      obtain ⟨p, hp, rfl⟩ := List.mem_map.mp hgroup
      obtain ⟨later, earlier, hinfix, hlt, herr⟩ := exists_infix_of_checkDisjoint herr
      cases herr
      obtain ⟨hholds, hlater, hearlier, hsorted⟩ := holdsBoth_of_infix hinfix
      have hstart := TextEdit.tailFirst_iff.mp hsorted
      refine ⟨earlier, later, hholds, ?_, ?_, rfl, rfl, fun hdisjoint => ?_, by omega⟩
      · rw [Path.same_comm]
        exact (List.mem_filter.mp hearlier).2
      · rw [Path.same_comm]
        exact (List.mem_filter.mp hlater).2
      · -- Disjoint edits in this order would not have been refused.
        have hle := hdisjoint.symm.stop_le (hrange later (mem_of_mem_editsFor hlater)) hsorted
        omega

/-- A workspace edit is valid exactly if it has edits, none of them ends before it starts, and of
    any two to one file one ends before the other starts. So the order of the edits does not
    matter. A refusal for an overlap names two edits of the file that do overlap, the one that
    starts first in front. -/
theorem validate_exact (w : WorkspaceEdit) :
    (w.validate = .ok () ↔
      w.edits ≠ [] ∧ (∀ e ∈ w.edits, e.start ≤ e.stop) ∧
        ∀ a b, w.HoldsBoth a b → a.path.same b.path = true →
          a.stop ≤ b.start ∨ b.stop ≤ a.start) ∧
      (∀ w' : WorkspaceEdit, w.edits.Perm w'.edits →
        (w.validate = .ok () ↔ w'.validate = .ok ())) ∧
      ∀ path first second, w.validate = .error (.overlap path first second) →
        ∃ a b, w.HoldsBoth a b ∧ a.path.same path = true ∧ b.path.same path = true ∧
          a.span = first ∧ b.span = second ∧ ¬ (a.stop ≤ b.start ∨ b.stop ≤ a.start) ∧
          first.start ≤ second.start := by
  refine ⟨?_, fun w' hperm => validate_perm hperm, ?_⟩
  -- That two spans do not overlap is symmetric, so it can be said of pairs in any order.
  · rw [validate_eq_ok_iff, pairwise_iff_holdsBoth]
    · rfl
    · intro a b hab hsame
      rw [Path.same_comm] at hsame
      exact (hab hsame).symm
  · intro path first second h
    obtain ⟨a, b, hholds, ha, hb, rfl, rfl, hoverlap, hstart⟩ := exists_overlap_of_validate h
    exact ⟨a, b, hholds, ha, hb, rfl, rfl, hoverlap, hstart⟩

-- Two spellings of one path, with the edit that starts first given last.
example : validate ⟨[⟨⟨"a"⟩, 15, 20, "y"⟩, ⟨⟨"a/"⟩, 10, 17, "x"⟩]⟩ =
    .error (.overlap ⟨"a"⟩ ⟨10, 17⟩ ⟨15, 20⟩) := by
  cbv

end HotRename.WorkspaceEdit
