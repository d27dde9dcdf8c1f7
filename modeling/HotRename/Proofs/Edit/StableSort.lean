import HotRename.Proofs.Edit.Substitution

/-!
# The order of edits is stable

Edits are carried out by descending start and then by descending end, and edits with one span in the
order in which they were given. This leaves no choice: there is one such arrangement of every list
of edits, and sorting finds it.
-/

namespace HotRename.TextEdit

variable {edits edits' sorted sorted' : List TextEdit}

/-- The edits by descending start and, for edits with one start, by descending end. Edits with one
    span stand in the order in which they were given. -/
structure IsStableSort (edits sorted : List TextEdit) : Prop where
  perm : sorted.Perm edits
  descending : sorted.Pairwise fun a b => b.start < a.start ∨ b.start = a.start ∧ b.stop ≤ a.stop
  stable : ∀ s, sorted.filter (fun e => e.span = s) = edits.filter fun e => e.span = s

/-- Sorting keeps the edits with one span in the order in which they are given. -/
theorem filter_span_sortTailFirst (edits : List TextEdit) (s : Span) :
    (sortTailFirst edits).filter (fun e => e.span = s) = edits.filter fun e => e.span = s := by
  have hsorted : (edits.filter fun e => e.span = s).Pairwise fun a b => a.tailFirst b = true := by
    refine List.pairwise_of_forall_mem_list fun a ha b hb => ?_
    have ha : a.span = s := of_decide_eq_true (List.mem_filter.mp ha).2
    have hb : b.span = s := of_decide_eq_true (List.mem_filter.mp hb).2
    have hstart : a.start = b.start := congrArg Span.start (ha.trans hb.symm)
    have hstop : a.stop = b.stop := congrArg Span.stop (ha.trans hb.symm)
    rw [tailFirst_iff]
    omega
  -- The sort is stable: a part of the list that is sorted already stays a part of it.
  have hsub : (edits.filter fun e => e.span = s).Sublist (sortTailFirst edits) :=
    @List.sublist_mergeSort TextEdit tailFirst edits (fun _ _ _ => tailFirst_trans) tailFirst_total
      _ hsorted List.filter_sublist
  have hsub' := hsub.filter fun e => e.span = s
  rw [List.filter_filter] at hsub'
  simp only [Bool.and_self] at hsub'
  have hlen := ((sortTailFirst_perm edits).filter fun e => e.span = s).length_eq
  exact (hsub'.eq_of_length hlen.symm).symm

/-- Sorting gives such an arrangement. -/
theorem isStableSort_sortTailFirst (edits : List TextEdit) :
    IsStableSort edits (sortTailFirst edits) where
  perm := sortTailFirst_perm edits
  descending := (sortTailFirst_pairwise edits).imp tailFirst_iff.mp
  stable := filter_span_sortTailFirst edits

/-- The sorted edits have the same spans, in whatever order the edits are given. -/
theorem IsStableSort.map_span (h : IsStableSort edits sorted) (h' : IsStableSort edits' sorted')
    (hperm : edits.Perm edits') : sorted.map span = sorted'.map span := by
  have hsorted {es es' : List TextEdit} (h : IsStableSort es es') : (es'.map span).Pairwise
      fun s t => t.start < s.start ∨ t.start = s.start ∧ t.stop ≤ s.stop :=
    List.pairwise_map.mpr h.descending
  have hspans : (sorted.map span).Perm (sorted'.map span) :=
    (h.perm.trans (hperm.trans h'.perm.symm)).map span
  -- Spans, unlike edits, are equal if each may stand in front of the other.
  refine hspans.eq_of_pairwise ?_ (hsorted h) (hsorted h')
  intro ⟨start, stop⟩ ⟨start', stop'⟩ _ _ hab hba
  simp only at hab hba
  have hstart : start = start' := by omega
  have hstop : stop = stop' := by omega
  rw [hstart, hstop]

/-- Edits are known by their spans and, for each span, by the edits that have it. -/
theorem eq_of_map_span (hspans : edits.map span = edits'.map span)
    (hfilter : ∀ s, (edits.filter fun e => e.span = s) = edits'.filter fun e => e.span = s) :
    edits = edits' := by
  induction edits generalizing edits' with
  | nil => rw [List.map_eq_nil_iff.mp hspans.symm]
  | cons e es ih =>
    cases edits' with
    | nil => cases hspans
    | cons e' es' =>
      obtain ⟨hhead, htail⟩ := List.cons.inj hspans
      -- The two heads have one span, so each is the first edit with that span.
      have hfirst := hfilter e.span
      simp only [List.filter_cons, hhead, decide_true, if_true] at hfirst
      obtain ⟨rfl, -⟩ := List.cons.inj hfirst
      congr 1
      refine ih htail fun s => ?_
      have hs := hfilter s
      rw [List.filter_cons, List.filter_cons] at hs
      split at hs
      · exact (List.cons.inj hs).2
      · exact hs

/-- There is one such arrangement, and sorting finds it. -/
theorem isStableSort_iff : IsStableSort edits sorted ↔ sorted = sortTailFirst edits := by
  constructor
  · intro h
    have hsort := isStableSort_sortTailFirst edits
    refine eq_of_map_span (h.map_span hsort (.refl edits)) fun s => ?_
    rw [h.stable, hsort.stable]
  · rintro rfl
    exact isStableSort_sortTailFirst edits

end HotRename.TextEdit
