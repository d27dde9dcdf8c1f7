import HotRename.Path.Basic
import HotRename.Proofs.List

/-!
# Components of joined paths

A path is a lead, which is the root, a leading `.` or nothing, and the steps that its pieces name.
Joining a path to a base appends its steps, and cutting off a base drops as many steps as the base
has. So what either gives depends on the components of the paths and not on how they are spelled.

* `components_eq`    `p.components = p.lead ++ p.steps`
* `components_join`  joining appends the steps
* `below?_eq`        cutting off a base drops its components
-/

namespace HotRename

/-- The component goes up or down. -/
def Component.isStep : Component → Bool
  | root | here => false
  | up | name _ => true

namespace Path

/-- What a path starts with. -/
def lead (p : Path) : List Component :=
  if p.isAbsolute then [.root] else if p.pieces.head? = some "." then [.here] else []

/-- The steps that the pieces of a path name. -/
def steps (p : Path) : List Component :=
  p.pieces.filterMap component?

/-- Even the empty path has a piece. -/
theorem pieces_ne_nil (p : Path) : p.pieces ≠ [] := by
  simp [pieces]

/-- What a piece names is a step. -/
theorem isStep_of_component? {piece : String} {c : Component} (h : component? piece = some c) :
    c.isStep = true := by
  unfold component? at h
  split at h
  · exact nomatch h
  · split at h <;> cases h <;> rfl

/-- The pieces that name no step are the filler. -/
theorem component?_eq_none {piece : String} : component? piece = none ↔ isFiller piece = true := by
  unfold component? isFiller
  split
  · simp_all
  · split <;> simp_all

/-- The components are the lead and then the steps. -/
theorem components_eq (p : Path) : p.components = p.lead ++ p.steps := by
  unfold components lead steps
  split
  · rfl
  · split
    · rename_i rest hpieces
      rw [hpieces, List.head?_cons, if_pos rfl]
      rfl
    -- The first piece of a relative path is not a dot here.
    · rename_i hne
      rw [if_neg]
      · rfl
      · intro hhead
        obtain ⟨rest, hrest⟩ := List.head?_eq_some_iff.mp hhead
        exact hne rest hrest

/-- The steps are what is left of the components without the lead. -/
theorem steps_eq_filter (p : Path) : p.steps = p.components.filter Component.isStep := by
  have hlead : p.lead.filter Component.isStep = [] := by
    unfold lead
    split
    · rfl
    · split <;> rfl
  rw [components_eq, List.filter_append, hlead, List.nil_append, eq_comm, List.filter_eq_self]
  intro c hc
  obtain ⟨piece, -, hpiece⟩ := List.mem_filterMap.mp hc
  exact isStep_of_component? hpiece

/-- A path is absolute exactly if the root is one of its components. -/
theorem isAbsolute_iff {p : Path} : p.isAbsolute = true ↔ .root ∈ p.components := by
  rw [components_eq, List.mem_append]
  constructor
  · intro h
    left
    simp [lead, h]
  · rintro (h | h)
    · unfold lead at h
      split at h
      · assumption
      · split at h <;> simp at h
    · obtain ⟨piece, -, hpiece⟩ := List.mem_filterMap.mp h
      exact nomatch isStep_of_component? hpiece

/-! ## Joining -/

/-- A separator keeps the pieces on both sides apart. -/
theorem pieces_append (a b : String) :
    (⟨a ++ "/" ++ b⟩ : Path).pieces = pieces ⟨a⟩ ++ pieces ⟨b⟩ := by
  unfold pieces
  rw [← List.map_append, ← List.splitOn_append_cons_self]
  simp

/-- So it does with the steps. -/
theorem steps_append (a b : String) : (⟨a ++ "/" ++ b⟩ : Path).steps = steps ⟨a⟩ ++ steps ⟨b⟩ := by
  rw [steps, pieces_append, List.filterMap_append]
  rfl

/-- The first piece is that of the part before the separator. -/
theorem head?_pieces_append (a b : String) :
    (⟨a ++ "/" ++ b⟩ : Path).pieces.head? = (pieces ⟨a⟩).head? := by
  obtain ⟨piece, rest, hpieces⟩ := List.exists_cons_of_ne_nil (pieces_ne_nil ⟨a⟩)
  rw [pieces_append, hpieces]
  rfl

/-- What a path starts with does not depend on what stands behind a separator. -/
theorem lead_append_congr (a b b' : String) :
    (⟨a ++ "/" ++ b⟩ : Path).lead = (⟨a ++ "/" ++ b'⟩ : Path).lead := by
  have habs : (⟨a ++ "/" ++ b⟩ : Path).isAbsolute = (⟨a ++ "/" ++ b'⟩ : Path).isAbsolute := by
    simp [isAbsolute, List.head?_append]
  rw [lead, lead, habs, head?_pieces_append, head?_pieces_append]

/-- So is the lead, if that part is not empty. -/
theorem lead_append {a : String} (ha : a ≠ "") (b : String) :
    (⟨a ++ "/" ++ b⟩ : Path).lead = lead ⟨a⟩ := by
  have habs : (⟨a ++ "/" ++ b⟩ : Path).isAbsolute = isAbsolute ⟨a⟩ := by
    have hne : a.toList ≠ [] := fun h => ha (String.toList_eq_nil_iff.mp h)
    obtain ⟨c, rest, hchars⟩ := List.exists_cons_of_ne_nil hne
    simp [isAbsolute, hchars]
  rw [lead, lead, habs, head?_pieces_append]

/-- The components of a path joined to a base are those of the base and then the steps. -/
theorem components_join {base rest : Path} (hbase : base.text ≠ "")
    (hrest : rest.isAbsolute = false) :
    (base.join rest).components = base.components ++ rest.steps := by
  unfold join
  rw [if_neg (by rw [hrest]; decide)]
  split
  · -- The base ends in a separator: in front of it stands a path with the same components.
    rename_i hlast
    obtain ⟨chars, hchars⟩ := List.getLast?_eq_some_iff.mp (hlast.resolve_left hbase)
    have htext : base.text = String.ofList chars ++ "/" ++ "" := by
      rw [← String.toList_inj, hchars]
      simp
    have hbase' : base = ⟨String.ofList chars ++ "/" ++ ""⟩ := by rw [← htext]
    have hjoin : (⟨base.text ++ rest.text⟩ : Path) = ⟨String.ofList chars ++ "/" ++ rest.text⟩ := by
      rw [htext]
      simp
    have hempty : steps ⟨""⟩ = [] := by decide
    rw [hjoin, hbase', components_eq, components_eq, lead_append_congr _ rest.text "", steps_append,
      steps_append, hempty, List.append_nil, List.append_assoc]
  · rw [components_eq, components_eq, lead_append hbase, steps_append, List.append_assoc]

/-- A path joined to the empty one keeps its components. -/
theorem components_join_empty {rest : Path} : (join ⟨""⟩ rest).components = rest.components := by
  unfold join
  split <;> simp

/-! ## Cutting off a base -/

/-- The pieces of the path with the given pieces. -/
theorem pieces_intercalate {pieces' : List String} (hne : pieces' ≠ [])
    (h : ∀ piece ∈ pieces', '/' ∉ piece.toList) :
    (⟨"/".intercalate pieces'⟩ : Path).pieces = pieces' :=
  Text.split_intercalate hne h

/-- Filler in front names no step. -/
theorem filterMap_dropWhile {pieces' : List String} :
    (pieces'.dropWhile isFiller).filterMap component? = pieces'.filterMap component? := by
  induction pieces' with
  | nil => rfl
  | cons piece pieces' ih =>
    rw [List.dropWhile_cons]
    split
    · rename_i hfiller
      rw [ih, List.filterMap_cons_none (component?_eq_none.mpr hfiller)]
    · rfl

/-- Without filler at both ends the steps are the same. -/
theorem filterMap_trimFiller (pieces' : List String) :
    (trimFiller pieces').filterMap component? = pieces'.filterMap component? := by
  rw [trimFiller, List.filterMap_reverse, filterMap_dropWhile, List.filterMap_reverse,
    List.reverse_reverse, filterMap_dropWhile]

/-- Dropping components drops the steps that they are. -/
theorem filterMap_dropComponents (n : Nat) (pieces' : List String) :
    (dropComponents n pieces').filterMap component? = (pieces'.filterMap component?).drop n := by
  fun_induction dropComponents n pieces' with
  | case1 pieces' => rfl
  | case2 n => rfl
  | case3 n piece pieces' hfiller ih =>
    rw [ih, List.filterMap_cons_none (component?_eq_none.mpr hfiller)]
  | case4 n piece pieces' hfiller ih =>
    cases hc : component? piece with
    | none => exact absurd (component?_eq_none.mp hc) hfiller
    | some c => rw [ih, List.filterMap_cons_some hc, List.drop_succ_cons]

/-- What is left are pieces that were there. -/
theorem mem_of_mem_dropComponents {n : Nat} {piece : String} {pieces' : List String}
    (h : piece ∈ dropComponents n pieces') : piece ∈ pieces' := by
  fun_induction dropComponents n pieces' with
  | case1 pieces' => exact h
  | case2 n => exact h
  | case3 n _ pieces' _ ih => exact List.mem_cons_of_mem _ (ih h)
  | case4 n _ pieces' _ ih => exact List.mem_cons_of_mem _ (ih h)

/-- Filler in front is dropped first, and then what stands behind. -/
theorem trimFiller_isPrefix (pieces' : List String) :
    trimFiller pieces' <+: pieces'.dropWhile isFiller := by
  unfold trimFiller
  rw [← List.reverse_suffix, List.reverse_reverse]
  exact List.dropWhile_suffix _

/-- A path whose first piece is none that is left out has no lead. -/
theorem lead_eq_nil {p : Path} (h : p.pieces.head?.any isFiller = false) : p.lead = [] := by
  -- The first piece of an absolute path is empty.
  have hrel : p.isAbsolute = false := by
    rw [Bool.eq_false_iff]
    intro habs
    obtain ⟨chars, hchars⟩ := List.head?_eq_some_iff.mp (of_decide_eq_true habs)
    rw [pieces, hchars, List.splitOn_cons_eq_if_modifyHead] at h
    exact nomatch h
  unfold lead
  rw [if_neg (by rw [hrel]; decide), if_neg]
  intro hhead
  rw [hhead] at h
  exact nomatch h

/-- The lead of an absolute path is the root. -/
theorem components_eq_root_cons {p : Path} (h : p.isAbsolute = true) :
    p.components = .root :: p.steps := by
  rw [components_eq, lead, if_pos h]
  rfl

/-- The path with the given pieces, filler at both ends left out, has the components that the
    pieces name. -/
theorem components_intercalate_trimFiller {pieces' : List String}
    (h : ∀ piece ∈ pieces', '/' ∉ piece.toList) :
    (⟨"/".intercalate (trimFiller pieces')⟩ : Path).components =
      pieces'.filterMap component? := by
  rw [← filterMap_trimFiller, components_eq]
  have hpre := trimFiller_isPrefix pieces'
  cases htrim : trimFiller pieces' with
  | nil => decide
  | cons first rest =>
    rw [htrim] at hpre
    -- Splitting gives back the pieces, since none of them holds a separator.
    have hpieces : (⟨"/".intercalate (first :: rest)⟩ : Path).pieces = first :: rest := by
      refine pieces_intercalate (List.cons_ne_nil _ _) fun piece hpiece => h piece ?_
      exact (List.dropWhile_suffix _).subset (hpre.subset hpiece)
    have hfirst : isFiller first = false := by
      obtain ⟨behind, hdrop⟩ := hpre
      have hhead := List.head?_dropWhile_not isFiller pieces'
      rw [← hdrop] at hhead
      exact hhead
    rw [lead_eq_nil (by rw [hpieces]; exact hfirst), steps, hpieces, List.nil_append]

/-- Cutting off a base leaves the components behind those of the base. -/
theorem below?_eq {base p : Path} (hbase : base.isAbsolute = true)
    (hpre : base.components <+: p.components) :
    ∃ rest, below? base p = some rest ∧
      rest.components = p.components.drop base.components.length := by
  have hp : p.isAbsolute = true := by
    rw [isAbsolute_iff]
    exact hpre.subset (isAbsolute_iff.mp hbase)
  refine ⟨_, by rw [below?, if_pos (by simp [hbase, hpre])], ?_⟩
  -- The root is a component of both paths but a step of neither.
  rw [components_intercalate_trimFiller, filterMap_dropComponents, components_eq_root_cons hbase,
    components_eq_root_cons hp]
  · rfl
  · intro piece hpiece
    obtain ⟨chars, hchars, rfl⟩ := List.mem_map.mp (mem_of_mem_dropComponents hpiece)
    rw [String.toList_ofList]
    exact Text.not_mem_of_mem_splitOn hchars

/-- A base that can be cut off is absolute, and the path goes on from it. -/
theorem below?_eq_some {base p rest : Path} (h : below? base p = some rest) :
    base.isAbsolute = true ∧ p.components = base.components ++ rest.components := by
  obtain ⟨hbelow, -⟩ := Option.ite_none_right_eq_some.mp h
  obtain ⟨hbase, hpre⟩ := Bool.and_eq_true_iff.mp hbelow
  obtain ⟨behind, hbehind⟩ := List.isPrefixOf_iff_prefix.mp hpre
  obtain ⟨rest', hrest', hcomponents⟩ := below?_eq hbase ⟨behind, hbehind⟩
  cases hrest'.symm.trans h
  refine ⟨hbase, ?_⟩
  rw [hcomponents, ← hbehind, List.drop_left]

end Path
end HotRename
