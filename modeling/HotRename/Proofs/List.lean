import Mathlib.Data.List.Forall2
import Mathlib.Data.List.Nodup

/-!
# Lists

`List.eraseDups` keeps the first of several equal members. What it gives has no repetition, and a
list without one stays as it is; members can be left out or replaced before or after. A list that
grows by members that are new holds what was added without repetitions. In an association list whose
keys do not repeat, every entry is the one that a lookup of its key finds.

A text is cut at every separator, and its pieces are joined by separators again. The two undo each
other, provided that no piece has a separator in it.
-/

namespace HotRename

variable {α : Type _} {β : Type _}

/-- What stands in one of two lists that correspond has its counterpart in the other. -/
theorem exists_of_forall₂ {R : α → β → Prop} {as : List α} {bs : List β}
    (h : List.Forall₂ R as bs) {a : α} (ha : a ∈ as) : ∃ b ∈ bs, R a b := by
  induction h with
  | nil => cases ha
  | @cons _ b _ _ hb _ ih =>
    rcases List.mem_cons.mp ha with rfl | ha
    · exact ⟨b, List.mem_cons_self, hb⟩
    · obtain ⟨b', hb', hrel⟩ := ih ha
      exact ⟨b', List.mem_cons_of_mem _ hb', hrel⟩

/-- A function that succeeds on every image succeeds on all of them. -/
theorem mapM_map_eq_map {γ : Type _} {f : β → Option γ} {g : α → β} {k : α → γ} {as : List α}
    (h : ∀ a ∈ as, f (g a) = some (k a)) : (as.map g).mapM f = some (as.map k) := by
  induction as with
  | nil => rfl
  | cons a as ih =>
    rw [List.map_cons, List.mapM_cons, h a List.mem_cons_self,
      ih fun a' ha' => h a' (List.mem_cons_of_mem _ ha')]
    rfl

/-- What undoes a function on every member undoes it on the list. -/
theorem mapM_map_eq_some {f : β → Option α} {g : α → β} {as : List α}
    (h : ∀ a ∈ as, f (g a) = some a) : (as.map g).mapM f = some as := by
  simpa using mapM_map_eq_map (k := id) h

/-- A function that keeps every member keeps the list. -/
theorem filterMap_eq_self {f : α → Option α} {as : List α} (h : ∀ a ∈ as, f a = some a) :
    as.filterMap f = as := by
  rw [List.filterMap_congr h, List.filterMap_some]

/-- Adds a member at the end, unless it is there. -/
def appendNew [DecidableEq α] (as : List α) (a : α) : List α :=
  if a ∈ as then as else as ++ [a]

/-- Adding several members adds those that are new, each once. -/
theorem foldl_appendNew [DecidableEq α] (as bs : List α) :
    bs.foldl appendNew as = as ++ (bs.filter (· ∉ as)).eraseDups := by
  induction bs generalizing as with
  | nil => simp
  | cons b bs ih =>
    rw [List.foldl_cons, ih, appendNew]
    by_cases hb : b ∈ as
    · simp [hb]
    · -- The new member is dropped from the rest, as a repeated member is.
      have hrest : bs.filter (· ∉ as ++ [b]) = (bs.filter (· ∉ as)).filter fun x => !x == b := by
        rw [List.filter_filter]
        refine List.filter_congr fun x _ => ?_
        by_cases hxb : x = b <;> simp [hxb]
      simp only [hb, if_false, not_false_eq_true, decide_true, List.filter_cons_of_pos]
      rw [hrest, List.eraseDups_cons, List.append_assoc, List.singleton_append]

/-- Started with nothing, this leaves out the repetitions. -/
theorem foldl_appendNew_nil [DecidableEq α] [beq : BEq α] [LawfulBEq α] (bs : List α) :
    bs.foldl appendNew [] = bs.eraseDups := by
  have hbeq : beq = instBEqOfDecidableEq := lawful_beq_subsingleton _ _
  subst hbeq
  simp [foldl_appendNew]

variable [BEq α] [LawfulBEq α]

/-- A list without repetitions stays as it is. -/
theorem eraseDups_of_nodup {as : List α} (h : as.Nodup) : as.eraseDups = as := by
  induction as with
  | nil => rfl
  | cons a as ih =>
    obtain ⟨hnew, hrest⟩ := List.nodup_cons.mp h
    have hfilter : as.filter (fun b => !b == a) = as := by
      refine List.filter_eq_self.mpr fun b hb => ?_
      have hne : b ≠ a := fun hsame => hnew (hsame ▸ hb)
      simp [hne]
    rw [List.eraseDups_cons, hfilter, ih hrest]

/-- Without its repetitions a list has every member once. -/
theorem nodup_eraseDups (as : List α) : as.eraseDups.Nodup := by
  match as with
  | [] => exact List.nodup_nil
  | a :: as =>
    rw [List.eraseDups_cons, List.nodup_cons]
    constructor
    · simp
    · exact nodup_eraseDups (as.filter fun b => !b == a)
termination_by as.length
decreasing_by
  exact Nat.lt_succ_of_le (List.length_filter_le _ _)

omit [LawfulBEq α] in
/-- What stays keeps its order. -/
theorem eraseDups_sublist (as : List α) : as.eraseDups.Sublist as := by
  match as with
  | [] => exact .slnil
  | a :: as =>
    rw [List.eraseDups_cons]
    exact ((eraseDups_sublist (as.filter fun b => !b == a)).trans List.filter_sublist).cons_cons a
termination_by as.length
decreasing_by
  exact Nat.lt_succ_of_le (List.length_filter_le _ _)

/-- Members may be left out before or after repetitions are. -/
theorem eraseDups_filter (p : α → Bool) (as : List α) :
    (as.filter p).eraseDups = as.eraseDups.filter p := by
  match as with
  | [] => rfl
  | a :: as =>
    have hrest := eraseDups_filter p (as.filter fun b => !b == a)
    rw [List.filter_filter] at hrest
    rw [List.eraseDups_cons, List.filter_cons, List.filter_cons]
    split
    · rw [List.eraseDups_cons, List.filter_filter, ← hrest]
      simp only [Bool.and_comm]
    · rename_i ha
      -- Where `a` is left out anyway, its repetitions are too.
      rw [← hrest]
      congr 1
      refine List.filter_congr fun b _ => ?_
      by_cases hb : b = a
      · simp [hb, ha]
      · simp [hb]
termination_by as.length
decreasing_by
  exact Nat.lt_succ_of_le (List.length_filter_le _ _)

/-- Where different members stay different, repetitions may be left out before or after. -/
theorem eraseDups_map [BEq β] [LawfulBEq β] {f : α → β} {as : List α}
    (hf : ∀ a ∈ as, ∀ b ∈ as, f a = f b → a = b) : (as.map f).eraseDups = as.eraseDups.map f := by
  match as with
  | [] => rfl
  | a :: as =>
    have hothers : ∀ b ∈ as.filter (fun b => !b == a), ∀ c ∈ as.filter (fun b => !b == a),
        f b = f c → b = c := by
      intro b hb c hc
      exact hf b (.tail a (List.mem_filter.mp hb).1) c (.tail a (List.mem_filter.mp hc).1)
    have hrest := eraseDups_map hothers
    -- The other members with the image of the first are the first itself.
    have hfilter : (as.map f).filter (fun b => !b == f a) =
        (as.filter fun b => !b == a).map f := by
      rw [List.filter_map]
      congr 1
      refine List.filter_congr fun b hb => ?_
      by_cases hba : b = a
      · simp [hba]
      · simp [hba, mt (hf b (.tail a hb) a (.head as)) hba]
    rw [List.map_cons, List.eraseDups_cons, List.eraseDups_cons, List.map_cons, hfilter, hrest]
termination_by as.length
decreasing_by
  exact Nat.lt_succ_of_le (List.length_filter_le _ _)

/-- Where no key is there twice, every entry is found under its key. -/
theorem lookup_of_mem {entries : List (α × β)} (h : (entries.map Prod.fst).Nodup) {a : α} {b : β}
    (hmem : (a, b) ∈ entries) : entries.lookup a = some b := by
  obtain ⟨before, after, rfl⟩ := List.append_of_mem hmem
  refine List.lookup_eq_some_iff.mpr ⟨before, after, rfl, ?_⟩
  intro entry hentry
  rw [List.map_append, List.map_cons, List.nodup_append] at h
  have hne := h.2.2 entry.1 (List.mem_map_of_mem hentry) a List.mem_cons_self
  exact bne_iff_ne.mpr hne.symm

namespace Text

/-! ## Texts cut at separators -/

/-- No piece of a split text has the separator. -/
theorem not_mem_of_mem_splitOn {sep : Char} {chars piece : List Char}
    (h : piece ∈ chars.splitOn sep) : sep ∉ piece := by
  induction chars generalizing piece with
  | nil => simp_all
  | cons c chars ih =>
    rw [List.splitOn_cons_eq_if_modifyHead] at h
    split at h
    · rcases List.mem_cons.mp h with rfl | h
      · exact List.not_mem_nil
      · exact ih h
    -- A character that is no separator joins the first piece of the rest.
    · rename_i hc
      cases hsplit : chars.splitOn sep with
      | nil => exact absurd hsplit (List.splitOn_ne_nil _ _)
      | cons first rest =>
        rw [hsplit] at h ih
        rcases List.mem_cons.mp h with rfl | h
        · intro hsep
          rcases List.mem_cons.mp hsep with rfl | hsep
          · simp at hc
          · exact ih List.mem_cons_self hsep
        · exact ih (List.mem_cons_of_mem _ h)

/-- Pieces without a slash are what a path made of them is split into. -/
theorem split_intercalate {pieces : List String} (hne : pieces ≠ [])
    (h : ∀ piece ∈ pieces, '/' ∉ piece.toList) :
    (("/".intercalate pieces).toList.splitOn '/').map String.ofList = pieces := by
  rw [String.toList_intercalate, show "/".toList = ['/'] from rfl,
    List.splitOn_intercalate _ (by simpa using h) (by simpa using hne)]
  simp

/-- The pieces of a text, joined again, are the text. -/
theorem intercalate_split (s : String) :
    "/".intercalate ((s.toList.splitOn '/').map String.ofList) = s := by
  apply String.toList_inj.mp
  rw [String.toList_intercalate]
  simp [Function.comp_def, List.intercalate_splitOn]

end Text
end HotRename
