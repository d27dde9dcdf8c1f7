import HotRename.Path.Basic
import HotRename.Proofs.List

/-!
# The order of paths

Components are totally ordered, and so are the component lists of paths. Spellings of one path are
neither before nor behind each other, so the order is one of paths and not of spellings. From this
the two collections of paths get their description:

* `keys_pairwise`       the keys of a table ascend, and no two of them are the same path
* `any_same_keys`       a path is a key exactly if it is the same as one of the stored paths
* `mem_of_mem_keys`     a key is spelled as one of the stored paths
* `keys_eq_set`         where each path is spelled one way, the two collections are the same
* `table_of_ascending`  a table is not changed when its entries are stored again
-/

namespace HotRename

namespace Component

/-- The text of a name. -/
def label : Component → String
  | name text => text
  | _ => ""

/-- Components are compared by their kinds first, and names then by their texts. -/
theorem cmp_eq : cmp = compareLex (compareOn rank) (compareOn label) := by
  funext a b
  cases a with
  | name s =>
    cases b with
    | name t => simp [cmp, compareLex, compareOn, rank, label]
    | _ => rfl
  | _ => cases b <;> rfl

instance : Std.TransCmp cmp := by
  rw [cmp_eq]
  infer_instance

instance : Std.LawfulEqCmp cmp where
  eq_of_compare {a b} h := by
    rw [cmp_eq, compareLex_eq_eq] at h
    have hrank : a.rank = b.rank := Nat.compare_eq_eq.mp h.1
    have hlabel : a.label = b.label := Std.LawfulEqCmp.eq_of_compare h.2
    -- Kinds other than names have one component each.
    cases a <;> cases b <;> simp_all [rank, label]

end Component

namespace Path

/-! ## Spellings of one path -/

/-- Paths are the same if their components are equal. -/
@[simp] theorem same_eq_true {p q : Path} : p.same q = true ↔ p.components = q.components := by
  simp [same]

/-- A path is the same as itself. -/
@[simp] theorem same_self (p : Path) : p.same p = true := by
  simp

/-- Either path is the same as the other, or none is. -/
theorem same_comm (p q : Path) : p.same q = q.same p := by
  simp only [same, eq_comm]

/-- Spellings of one path are the same as the same paths. -/
theorem same_congr {p q : Path} (h : p.same q = true) (r : Path) : p.same r = q.same r := by
  simp only [same, same_eq_true.mp h]

/-! ## The order -/

instance : Std.TransCmp cmp where
  eq_swap {p q} := by
    show List.compareLex Component.cmp p.components q.components = _
    exact Std.OrientedCmp.eq_swap
  isLE_trans {p q r} hpq hqr := by
    show (List.compareLex Component.cmp p.components r.components).isLE
    exact Std.TransCmp.isLE_trans hpq hqr

/-- Compared the other way round, paths compare the other way round. -/
theorem cmp_swap (p q : Path) : p.cmp q = (q.cmp p).swap :=
  Std.OrientedCmp.eq_swap

/-- Paths compare equal exactly if they are the same. -/
theorem cmp_eq_iff {p q : Path} : p.cmp q = .eq ↔ p.same q = true := by
  rw [same_eq_true]
  show List.compareLex Component.cmp p.components q.components = .eq ↔ _
  exact Std.LawfulEqCmp.compare_eq_iff_eq

/-- Spellings of one path compare alike with every path. -/
theorem cmp_congr_left {p q : Path} (h : p.same q = true) (r : Path) : p.cmp r = q.cmp r := by
  simp only [cmp, same_eq_true.mp h]

/-- The order of paths is transitive. -/
theorem le_trans {p q r : Path} (hpq : p.le q = true) (hqr : q.le r = true) : p.le r = true :=
  Std.TransCmp.isLE_trans hpq hqr

/-- Any two paths are in order one way or the other. -/
theorem le_total (p q : Path) : (p.le q || q.le p) = true := by
  unfold le
  rw [cmp_swap q p]
  cases p.cmp q <;> rfl

/-- Of two different paths in ascending order the first comes before the second. -/
theorem cmp_eq_lt {p q : Path} (hle : p.le q = true) (hne : p.same q = false) :
    p.cmp q = .lt := by
  unfold le at hle
  cases h : p.cmp q with
  | lt => rfl
  | eq => rw [cmp_eq_iff.mp h] at hne; exact absurd hne (by decide)
  | gt => rw [h] at hle; exact absurd hle (by decide)

/-- A path that comes before another is not the same. -/
theorem not_same_of_lt {p q : Path} (h : p.cmp q = .lt) : p.same q = false := by
  cases hs : p.same q with
  | false => rfl
  | true => rw [cmp_eq_iff.mpr hs] at h; exact absurd h (by decide)

/-! ## Every path once -/

/-- A first spelling is one of the given paths. -/
theorem mem_of_mem_firstSpellings {p : Path} {ps : List Path} (h : p ∈ firstSpellings ps) :
    p ∈ ps := by
  induction ps with
  | nil => exact h
  | cons q qs ih =>
    rcases List.mem_cons.mp h with rfl | h
    · exact List.mem_cons_self
    · exact List.mem_cons_of_mem _ (ih (List.mem_filter.mp h).1)

/-- No path is lost when every path is kept under its first spelling. -/
theorem any_same_firstSpellings (p : Path) (ps : List Path) :
    (firstSpellings ps).any p.same = ps.any p.same := by
  induction ps with
  | nil => rfl
  | cons q qs ih =>
    rw [firstSpellings, List.any_cons, List.any_cons, ← ih]
    cases hq : p.same q with
    | true => rfl
    | false =>
      -- The filter drops only spellings of `q`, of which `p` is none.
      simp only [Bool.false_or, List.any_filter]
      congr 1
      funext r
      cases hr : p.same r with
      | false => simp
      | true =>
        have hqr : q.same r = false := by
          rw [same_comm, ← same_congr hr, hq]
        simp [hqr]

/-- No two first spellings are of one path. -/
theorem firstSpellings_pairwise (ps : List Path) :
    (firstSpellings ps).Pairwise fun p q => p.same q = false := by
  induction ps with
  | nil => exact .nil
  | cons q qs ih =>
    refine List.Pairwise.cons ?_ (ih.filter _)
    intro r hr
    simpa using (List.mem_filter.mp hr).2

/-! ## The keys of a table -/

/-- Different paths are put into ascending order. -/
theorem sort_pairwise {ps : List Path} (h : ps.Pairwise fun p q => p.same q = false) :
    (sort ps).Pairwise fun p q => p.cmp q = .lt := by
  have hle : (sort ps).Pairwise fun p q => p.le q = true :=
    @List.pairwise_mergeSort Path le (fun _ _ _ => le_trans) le_total ps
  -- Sorting loses and repeats no path, so they are still different.
  have hperm : (sort ps).Perm ps := List.mergeSort_perm _ _
  have hne : (sort ps).Pairwise fun p q => p.same q = false := by
    refine hperm.symm.pairwise h ?_
    intro p q h
    rw [same_comm]
    exact h
  exact (hle.and hne).imp fun h => cmp_eq_lt h.1 h.2

/-- A key is one of the stored paths. -/
theorem mem_of_mem_keys {p : Path} {ps : List Path} (h : p ∈ keys ps) : p ∈ ps :=
  mem_of_mem_firstSpellings (List.mem_mergeSort.mp h)

/-- A path is a key exactly if it is the same as one of the stored paths. -/
theorem any_same_keys (p : Path) (ps : List Path) : (keys ps).any p.same = ps.any p.same := by
  rw [← any_same_firstSpellings p ps]
  exact (List.mergeSort_perm _ _).any_eq

/-- The keys ascend, and no two of them are the same path. -/
theorem keys_pairwise (ps : List Path) : (keys ps).Pairwise fun p q => p.cmp q = .lt :=
  sort_pairwise (firstSpellings_pairwise ps)

/-- Among entries whose paths ascend, only an entry itself has the path of the entry. -/
theorem eq_of_same {entries : List (Path × α)}
    (hasc : (entries.map Prod.fst).Pairwise fun p q => p.cmp q = .lt) {a b : Path × α}
    (ha : a ∈ entries) (hb : b ∈ entries) (hsame : a.1.same b.1 = true) : a = b := by
  have hlt := List.pairwise_map.mp hasc
  -- Of two entries one comes before the other; then their paths differ.
  refine List.Pairwise.forall_of_forall_of_flip (R := fun a b => a.1.same b.1 = true → a = b)
    (fun _ _ _ => rfl) (hlt.imp ?_) (hlt.imp ?_) ha hb hsame
  · intro a b hab hsame
    rw [not_same_of_lt hab] at hsame
    exact absurd hsame (by decide)
  · intro a b hab hsame
    rw [same_comm, not_same_of_lt hab] at hsame
    exact absurd hsame (by decide)

/-- An entry is found under every spelling of its path. -/
theorem find?_eq_some {entries : List (Path × α)}
    (hasc : (entries.map Prod.fst).Pairwise fun p q => p.cmp q = .lt) {p q : Path} {value : α}
    (hmem : (q, value) ∈ entries) (hsame : p.same q = true) : find? p entries = some value := by
  obtain ⟨found, hfound⟩ : ∃ found, entries.find? (fun entry => p.same entry.1) = some found := by
    rw [← Option.isSome_iff_exists, List.find?_isSome]
    exact ⟨(q, value), hmem, hsame⟩
  have hfoundSame : p.same found.1 = true := by simpa using List.find?_some hfound
  -- The entry that is found has the same path, and there is only one.
  have heq : found = (q, value) := by
    refine eq_of_same hasc (List.mem_of_find?_eq_some hfound) hmem ?_
    rw [← same_congr hfoundSame]
    exact hsame
  rw [find?, hfound, heq]
  rfl

/-! ## Sets of paths -/

/-- A last spelling is one of the given paths. -/
theorem mem_of_mem_lastSpellings {p : Path} {ps : List Path} (h : p ∈ lastSpellings ps) :
    p ∈ ps := by
  induction ps with
  | nil => exact h
  | cons q qs ih =>
    rw [lastSpellings] at h
    split at h
    · exact List.mem_cons_of_mem _ (ih h)
    · rcases List.mem_cons.mp h with rfl | h
      · exact List.mem_cons_self
      · exact List.mem_cons_of_mem _ (ih h)

/-- No path is lost when every path is kept under its last spelling. -/
theorem any_same_lastSpellings (p : Path) (ps : List Path) :
    (lastSpellings ps).any p.same = ps.any p.same := by
  induction ps with
  | nil => rfl
  | cons q qs ih =>
    rw [lastSpellings, List.any_cons, ← ih]
    split
    · rename_i hq
      -- The spelling that is dropped stands for the path of one that is kept.
      cases hpq : p.same q with
      | false => rw [Bool.false_or]
      | true =>
        rw [Bool.true_or, ← hq]
        congr 1
        funext r
        exact same_congr hpq r
    · rw [List.any_cons]

/-- No two last spellings are of one path. -/
theorem lastSpellings_pairwise (ps : List Path) :
    (lastSpellings ps).Pairwise fun p q => p.same q = false := by
  induction ps with
  | nil => exact .nil
  | cons q qs ih =>
    rw [lastSpellings]
    split
    · exact ih
    · rename_i hq
      refine List.Pairwise.cons (fun r hr => ?_) ih
      exact Bool.eq_false_iff.mpr fun hsame => hq (List.any_eq_true.mpr ⟨r, hr, hsame⟩)

/-- Spellings of one path among the given ones are equal. -/
def SpelledOneWay (ps : List Path) : Prop :=
  ∀ p ∈ ps, ∀ q ∈ ps, p.same q = true → p = q

/-- Paths that stand for all of those that are spelled one way are all of them. -/
theorem SpelledOneWay.mem_iff {ps qs : List Path} (h : SpelledOneWay ps)
    (hsub : ∀ p ∈ qs, p ∈ ps) (hany : ∀ p, qs.any (same p) = ps.any (same p)) {p : Path} :
    p ∈ qs ↔ p ∈ ps := by
  refine ⟨hsub p, fun hp => ?_⟩
  have hfound : qs.any p.same = true := by
    rw [hany]
    exact List.any_eq_true.mpr ⟨p, hp, same_self p⟩
  obtain ⟨q, hq, hsame⟩ := List.any_eq_true.mp hfound
  rw [h p hp q (hsub q hq) hsame]
  exact hq

/-- Two lists of the same paths in ascending order are equal. -/
theorem eq_of_ascending {ps qs : List Path} (hps : ps.Pairwise fun p q => p.cmp q = .lt)
    (hqs : qs.Pairwise fun p q => p.cmp q = .lt) (hmem : ∀ p, p ∈ ps ↔ p ∈ qs) : ps = qs := by
  have hirrefl : ∀ p q : Path, p.cmp q = .lt → p ≠ q := by
    rintro p q hlt rfl
    have hdiffers := not_same_of_lt hlt
    rw [same_self] at hdiffers
    exact absurd hdiffers (by decide)
  -- A list in ascending order repeats nothing, so the two are permutations of each other.
  have hperm : ps.Perm qs :=
    (List.perm_ext_iff_of_nodup (hps.imp (hirrefl _ _)) (hqs.imp (hirrefl _ _))).mpr hmem
  refine hperm.eq_of_pairwise (fun p q _ _ hpq hqp => ?_) hps hqs
  rw [cmp_swap, hqp] at hpq
  exact nomatch hpq

/-- What is in a set is one of the collected paths. -/
theorem mem_of_mem_set {p : Path} {ps : List Path} (h : p ∈ set ps) : p ∈ ps :=
  mem_of_mem_lastSpellings (List.mem_mergeSort.mp h)

/-- A path is in a set exactly if it is the same as one of the collected paths. -/
theorem any_same_set (p : Path) (ps : List Path) : (set ps).any p.same = ps.any p.same :=
  (List.mergeSort_perm _ _).any_eq.trans (any_same_lastSpellings p ps)

/-- Paths in ascending order are each spelled one way. -/
theorem spelledOneWay_of_ascending {ps : List Path}
    (hasc : ps.Pairwise fun p q => p.cmp q = .lt) : SpelledOneWay ps := by
  intro p hp q hq hsame
  have heq : (p, ()) = (q, ()) :=
    @eq_of_same _ (ps.map fun p => (p, ())) (by simpa [Function.comp_def] using hasc) _ _
      (List.mem_map_of_mem hp) (List.mem_map_of_mem hq) hsame
  exact congrArg Prod.fst heq

/-- A set of paths holds each of them under one spelling. -/
theorem spelledOneWay_set (ps : List Path) : SpelledOneWay (set ps) :=
  spelledOneWay_of_ascending (sort_pairwise (lastSpellings_pairwise ps))

/-- Collecting a set again changes nothing in it. -/
theorem mem_set_set {p : Path} {ps : List Path} : p ∈ set (set ps) ↔ p ∈ set ps :=
  (spelledOneWay_set ps).mem_iff (fun _ => mem_of_mem_set) fun q => any_same_set q _

/-- Where each path is spelled one way, it does not matter which spelling is kept. -/
theorem SpelledOneWay.keys_eq_set {ps : List Path} (h : SpelledOneWay ps) : keys ps = set ps := by
  have hset : ∀ p, p ∈ set ps ↔ p ∈ ps := fun p =>
    h.mem_iff (fun _ => mem_of_mem_set) (fun q => any_same_set q ps)
  have hkeys : ∀ p, p ∈ keys ps ↔ p ∈ ps := fun p =>
    h.mem_iff (fun _ => mem_of_mem_keys) (fun q => any_same_keys q ps)
  exact eq_of_ascending (keys_pairwise ps) (sort_pairwise (lastSpellings_pairwise ps))
    fun p => (hkeys p).trans (hset p).symm

/-! ## Tables -/

/-- Paths that ascend are the keys of a table as they stand. -/
theorem keys_of_ascending {ps : List Path} (h : ps.Pairwise fun p q => p.cmp q = .lt) :
    keys ps = ps :=
  eq_of_ascending (keys_pairwise ps) h fun _ =>
    (spelledOneWay_of_ascending h).mem_iff (fun _ => mem_of_mem_keys) fun q => any_same_keys q ps

/-- So is the set of paths that ascend. -/
theorem set_of_ascending {ps : List Path} (h : ps.Pairwise fun p q => p.cmp q = .lt) :
    set ps = ps := by
  rw [← (spelledOneWay_of_ascending h).keys_eq_set, keys_of_ascending h]

/-- Storing the entries of a table again, in ascending order, gives the table. -/
theorem table_of_ascending {entries : List (Path × α)}
    (h : (entries.map Prod.fst).Pairwise fun p q => p.cmp q = .lt) : table entries = entries := by
  -- The last entry stored under a path is the only one.
  have hfind : ∀ e ∈ entries, entries.reverse.find? (fun entry => e.1.same entry.1) = some e := by
    intro e he
    cases hfound : entries.reverse.find? fun entry => e.1.same entry.1 with
    | none =>
      have hnone := List.find?_eq_none.mp hfound e (List.mem_reverse.mpr he)
      simp at hnone
    | some found =>
      have hsame : e.1.same found.1 = true := by simpa using List.find?_some hfound
      have hmem := List.mem_reverse.mp (List.mem_of_find?_eq_some hfound)
      rw [eq_of_same h he hmem hsame]
  rw [table, keys_of_ascending h, List.filterMap_map]
  exact filterMap_eq_self fun e he => by simp [hfind e he]

/-- The paths of a table ascend. -/
theorem table_pairwise (entries : List (Path × α)) :
    ((table entries).map Prod.fst).Pairwise fun p q => p.cmp q = .lt := by
  refine List.pairwise_map.mpr (List.Pairwise.filterMap _ ?_ (keys_pairwise _))
  intro p q hlt a ha b hb
  obtain ⟨_, _, rfl⟩ := Option.map_eq_some_iff.mp ha
  obtain ⟨_, _, rfl⟩ := Option.map_eq_some_iff.mp hb
  exact hlt

/-- A value in a table was stored there under some spelling. -/
theorem exists_of_mem_table {entries : List (Path × α)} {p : Path} {value : α}
    (h : (p, value) ∈ table entries) : ∃ q, (q, value) ∈ entries := by
  obtain ⟨key, -, hkey⟩ := List.mem_filterMap.mp h
  obtain ⟨found, hfound, heq⟩ := Option.map_eq_some_iff.mp hkey
  cases heq
  exact ⟨found.1, List.mem_reverse.mp (List.mem_of_find?_eq_some hfound)⟩

end Path
end HotRename
