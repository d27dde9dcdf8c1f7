import HotRename.Proofs.Edit.Groups
import HotRename.Proofs.Edit.Substitution
import Mathlib.Data.List.Pairwise

/-!
# Which edits are accepted

The checks look at neighbours in sorted groups. What they accept can be said of the edits as they
were given: those of one file are pairwise disjoint. So neither validation nor splicing depends on
the order of the edits, and where no span is empty the result does not depend on it either. Main
statements:

* `validate_eq_ok_iff`      the workspace edits that are valid
* `Splice.apply_eq_ok_iff`  the edits that can be spliced into a text
* `sortTailFirst_of_perm`   the order in which disjoint edits are carried out
-/

namespace HotRename

namespace TextEdit

/-- To be disjoint does not depend on which edit is named first. -/
theorem Disjoint.symm {a b : TextEdit} (h : a.Disjoint b) : b.Disjoint a :=
  Or.symm h

instance : Std.Symm Disjoint :=
  ⟨fun _ _ => Disjoint.symm⟩

/-- Of two disjoint edits, the one that is carried out later ends before the other starts. -/
theorem Disjoint.stop_le {a b : TextEdit} (h : a.Disjoint b) (ha : a.start ≤ a.stop)
    (hab : a.tailFirst b = true) : b.stop ≤ a.start := by
  rw [tailFirst_iff] at hab
  unfold Disjoint at h
  omega

/-- Disjoint edits without empty spans are carried out in one order, in whatever order they are
    given: no two of them start together. -/
theorem sortTailFirst_of_perm {edits edits' : List TextEdit} (hperm : edits.Perm edits')
    (hspan : ∀ e ∈ edits, e.start < e.stop) (hdisjoint : edits.Pairwise Disjoint) :
    sortTailFirst edits = sortTailFirst edits' := by
  have hsorted := (sortTailFirst_perm edits).trans (hperm.trans (sortTailFirst_perm edits').symm)
  refine List.Perm.eq_of_pairwise ?_ (sortTailFirst_pairwise edits) (sortTailFirst_pairwise edits')
    hsorted
  intro a b ha hb hab hba
  have ha : a ∈ edits := (sortTailFirst_perm edits).mem_iff.mp ha
  have hb : b ∈ edits := (sortTailFirst_perm edits).mem_iff.mp (hsorted.mem_iff.mpr hb)
  -- Two different edits that may stand in either order would start together, and then overlap.
  by_contra hne
  have hspanA := hspan a ha
  have hspanB := hspan b hb
  have hapart : a.Disjoint b := hdisjoint.forall ha hb hne
  rw [tailFirst_iff] at hab hba
  unfold Disjoint at hapart
  omega

end TextEdit

namespace WorkspaceEdit

open TextEdit

/-! ## The edits of one file -/

/-- Edits that lie one behind the other pass the check for overlaps. -/
theorem checkDisjoint_of_pairwise {path : Path} {es : List TextEdit}
    (h : es.Pairwise fun later earlier => earlier.stop ≤ later.start) :
    checkDisjoint path es = .ok () := by
  induction es with
  | nil => rfl
  | cons later es ih =>
    cases es with
    | nil => rfl
    | cons earlier rest =>
      obtain ⟨hhead, htail⟩ := List.pairwise_cons.mp h
      have hle := hhead earlier List.mem_cons_self
      rw [checkDisjoint, if_neg (by omega)]
      exact ih htail

/-- Sorted edits pass the check for overlaps exactly if any two of them are disjoint. -/
theorem checkDisjoint_sortTailFirst_iff {path : Path} {edits : List TextEdit}
    (hrange : ∀ e ∈ edits, e.start ≤ e.stop) :
    checkDisjoint path (sortTailFirst edits) = .ok () ↔ edits.Pairwise Disjoint := by
  have hperm := sortTailFirst_perm edits
  have hrange' : ∀ e ∈ sortTailFirst edits, e.start ≤ e.stop :=
    fun e he => hrange e (hperm.mem_iff.mp he)
  rw [← hperm.pairwise_iff TextEdit.Disjoint.symm]
  constructor
  · intro h
    exact (Splice.checkDisjoint_pairwise hrange' h).imp .inr
  · intro h
    -- Of two disjoint edits in this order, the second ends before the first starts.
    refine checkDisjoint_of_pairwise ?_
    refine (h.and (sortTailFirst_pairwise edits)).imp_of_mem ?_
    intro a b ha _ hab
    exact hab.1.stop_le (hrange' a ha) hab.2

/-! ## All files -/

/-- The groups pass if each of them does. -/
theorem checkGroups_eq_ok_iff {groups : List (Path × List TextEdit)} :
    checkGroups groups = .ok () ↔ ∀ group ∈ groups, checkDisjoint group.1 group.2 = .ok () := by
  induction groups with
  | nil => simp [checkGroups]
  | cons group groups ih =>
    rw [checkGroups, Except.unit_bind_eq_ok, ih, List.forall_mem_cons]

/-- The edits of every file are disjoint if those that name the same path are. -/
theorem pairwise_editsFor_iff {w : WorkspaceEdit} :
    (∀ p ∈ w.groupKeys, (w.editsFor p).Pairwise Disjoint) ↔
      w.edits.Pairwise fun a b => a.path.same b.path = true → a.Disjoint b := by
  constructor
  · intro h
    rw [List.pairwise_iff_forall_sublist]
    intro a b hab hsame
    obtain ⟨q, hq, haq⟩ := exists_groupKey (hab.subset List.mem_cons_self)
    rw [Path.same_comm] at haq
    have hqb : q.same b.path = true := by
      rw [Path.same_congr haq]
      exact hsame
    -- The two edits stand in the group of their file in the order in which they were given.
    have hgroup : [a, b].Sublist (w.editsFor q) := by
      have hboth : [a, b].filter (fun e => q.same e.path) = [a, b] := by
        simp only [List.filter_cons, haq, hqb, if_true, List.filter_nil]
      rw [← hboth]
      exact hab.filter _
    exact List.pairwise_iff_forall_sublist.mp (h q hq) hgroup
  · intro h p _
    refine (h.filter _).imp_of_mem ?_
    intro a b ha hb hab
    have hpa := (List.mem_filter.mp ha).2
    refine hab ?_
    rw [← Path.same_congr hpa]
    exact (List.mem_filter.mp hb).2

/-- The edits to a file are among all edits. -/
theorem mem_of_mem_editsFor {w : WorkspaceEdit} {p : Path} {e : TextEdit}
    (h : e ∈ w.editsFor p) : e ∈ w.edits :=
  (List.mem_filter.mp h).1

/-- A workspace edit is valid if it has edits, none of them backward, and those to one file are
    pairwise disjoint. -/
theorem validate_eq_ok_iff {w : WorkspaceEdit} :
    w.validate = .ok () ↔
      w.edits ≠ [] ∧ (∀ e ∈ w.edits, e.start ≤ e.stop) ∧
        w.edits.Pairwise fun a b => a.path.same b.path = true → a.Disjoint b := by
  unfold validate
  split
  · rename_i hempty
    simp [List.isEmpty_iff.mp hempty]
  · rename_i hne
    have hne : w.edits ≠ [] := fun h => hne (List.isEmpty_iff.mpr h)
    split
    -- An edit is backward, and both sides fail.
    · rename_i bad hbad
      have hback : bad.stop < bad.start := by simpa using List.find?_some hbad
      simp only [reduceCtorEq, false_iff]
      rintro ⟨-, hrange, -⟩
      have := hrange bad (List.mem_of_find?_eq_some hbad)
      omega
    -- No edit is backward, so that the groups decide, and in each group the check is exact.
    · rename_i hnone
      have hrange : ∀ e ∈ w.edits, e.start ≤ e.stop := by
        simpa using hnone
      rw [checkGroups_eq_ok_iff, ← pairwise_editsFor_iff]
      simp only [groups, List.forall_mem_map, ne_eq, hne, not_false_eq_true, true_and]
      rw [and_iff_right hrange]
      refine forall_congr' fun p => imp_congr_right fun _ => ?_
      exact checkDisjoint_sortTailFirst_iff fun e he => hrange e (mem_of_mem_editsFor he)

/-- Validity does not depend on the order of the edits. -/
theorem validate_perm {w w' : WorkspaceEdit} (h : w.edits.Perm w'.edits) :
    w.validate = .ok () ↔ w'.validate = .ok () := by
  rw [validate_eq_ok_iff, validate_eq_ok_iff]
  refine and_congr ?_ (and_congr ?_ (h.pairwise_iff ?_))
  · rw [← List.length_pos_iff, ← List.length_pos_iff, h.length_eq]
  · exact forall_congr' fun e => imp_congr_left h.mem_iff
  · intro a b hab hsame
    rw [Path.same_comm] at hsame
    exact (hab hsame).symm

end WorkspaceEdit

namespace Splice

/-- The edit is not backward, and starts and ends between characters of the text. -/
def Fits (text : List Char) (e : TextEdit) : Prop :=
  e.start ≤ e.stop ∧ Text.isBoundary e.start text = true ∧ Text.isBoundary e.stop text = true

instance (text : List Char) (e : TextEdit) : Decidable (Fits text e) :=
  inferInstanceAs (Decidable (_ ∧ _))

/-- All edits are accepted if each of them fits. -/
theorem checkAll_eq_ok_iff {path : Path} {text : List Char} {es : List TextEdit} :
    checkAll path text es = .ok () ↔ ∀ e ∈ es, Fits text e := by
  induction es with
  | nil => simp [checkAll]
  | cons e es ih =>
    rw [checkAll, Except.unit_bind_eq_ok, ih, List.forall_mem_cons, checkFit_ok_iff, Fits]

/-- Edits can be spliced into a text if each of them fits and any two are disjoint. -/
theorem apply_eq_ok_iff {path : Path} {text out : String} {edits : List TextEdit} :
    apply path text edits = .ok out ↔
      (∀ e ∈ edits, Fits text.toList e) ∧ edits.Pairwise TextEdit.Disjoint ∧
        out = String.ofList (run text.toList (TextEdit.sortTailFirst edits)) := by
  -- The checks are made on the sorted edits, but both are about each edit or each pair, in any
  -- order.
  have hfits : checkAll path text.toList (TextEdit.sortTailFirst edits) = .ok () ↔
      ∀ e ∈ edits, Fits text.toList e := by
    rw [checkAll_eq_ok_iff]
    exact forall_congr' fun e => imp_congr_left (TextEdit.sortTailFirst_perm edits).mem_iff
  simp only [apply, applyChars, Except.map_eq_ok, Except.unit_bind_eq_ok, hfits]
  constructor
  · rintro ⟨chars, ⟨hfit, hdisjoint, hchars⟩, rfl⟩
    cases hchars
    refine ⟨hfit, ?_, rfl⟩
    exact (WorkspaceEdit.checkDisjoint_sortTailFirst_iff fun e he => (hfit e he).1).mp hdisjoint
  · rintro ⟨hfit, hdisjoint, rfl⟩
    refine ⟨_, ⟨hfit, ?_, rfl⟩, rfl⟩
    exact (WorkspaceEdit.checkDisjoint_sortTailFirst_iff fun e he => (hfit e he).1).mpr hdisjoint

end Splice
end HotRename
