import HotRename.Edit.Workspace
import HotRename.Proofs.Path.Order

/-!
# The edited files of a workspace edit

The keys of the groups are the edited files: each once, in ascending order, and spelled as in one
of the edits. What belongs to a group depends on the path alone, not on its spelling.
-/

namespace HotRename.WorkspaceEdit

/-- The edited files ascend, and no two of them are the same path. -/
theorem groupKeys_pairwise (w : WorkspaceEdit) :
    w.groupKeys.Pairwise fun p q => p.cmp q = .lt :=
  Path.keys_pairwise _

/-- A path is edited exactly if it is the same as one of the keys. -/
theorem touches_eq_any_groupKeys (w : WorkspaceEdit) (p : Path) :
    w.touches p = w.groupKeys.any p.same := by
  rw [groupKeys, Path.any_same_keys, List.any_map]
  rfl

/-- Every key is an edited file. -/
theorem touches_of_mem_groupKeys {w : WorkspaceEdit} {q : Path} (h : q ∈ w.groupKeys) :
    w.touches q = true := by
  rw [touches_eq_any_groupKeys]
  exact List.any_eq_true.mpr ⟨q, h, Path.same_self q⟩

/-- Every edit is to the file of some key. -/
theorem exists_groupKey {w : WorkspaceEdit} {e : TextEdit} (h : e ∈ w.edits) :
    ∃ q ∈ w.groupKeys, e.path.same q = true := by
  have htouches : w.touches e.path = true :=
    List.any_eq_true.mpr ⟨e, h, Path.same_self e.path⟩
  rw [touches_eq_any_groupKeys] at htouches
  exact List.any_eq_true.mp htouches

/-- A key is spelled as in one of the edits. -/
theorem exists_path_eq_of_mem_groupKeys {w : WorkspaceEdit} {q : Path} (h : q ∈ w.groupKeys) :
    ∃ e ∈ w.edits, e.path = q :=
  List.mem_map.mp (Path.mem_of_mem_keys h)

/-- Spellings of one path have the same edits. -/
theorem editsFor_congr (w : WorkspaceEdit) {p q : Path} (h : p.same q = true) :
    w.editsFor p = w.editsFor q := by
  unfold editsFor
  congr 1
  funext e
  exact Path.same_congr h e.path

end HotRename.WorkspaceEdit
