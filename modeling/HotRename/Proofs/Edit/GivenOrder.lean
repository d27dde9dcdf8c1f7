import HotRename.Proofs.Edit.Disjoint
import HotRename.Proofs.Edit.StableSort
import HotRename.Proofs.Edit.Weave

/-!
# The order in which edits are given

Edits are sorted before they are carried out, so the order in which they are given can matter only
between edits with the same span. Two edits that replace the same bytes are refused. Two edits that
only insert at the same offset are not, and then the text given last stands first. Main statements:

* `map_span_sortTailFirst`  the spans of the sorted edits do not depend on the order
* `filter_sortTailFirst`    the insertions at one offset stay in the order in which they are given
* `substitute_eq_iff`       two substitutions agree exactly if they insert the same texts
* `apply_given_order`       what the order means for a splice
* `apply_order_matters`     two insertions for which it matters
-/

namespace HotRename

namespace TextEdit

variable {edits edits' : List TextEdit}

/-- The edit puts a text at the offset and takes nothing away. -/
def insertsAt (n : Nat) (e : TextEdit) : Bool :=
  e.start = n && e.stop = n

/-- An insertion starts and ends at its offset. -/
theorem insertsAt_iff {n : Nat} {e : TextEdit} :
    e.insertsAt n = true ↔ e.start = n ∧ e.stop = n := by
  simp [insertsAt]

/-- The sorted edits have the same spans, in whatever order the edits are given. -/
theorem map_span_sortTailFirst (hperm : edits.Perm edits') :
    (sortTailFirst edits).map span = (sortTailFirst edits').map span :=
  -- Both are sorted by their spans.
  (isStableSort_sortTailFirst edits).map_span (isStableSort_sortTailFirst edits') hperm

/-- Sorting keeps the insertions at one offset in the order in which they are given. -/
theorem filter_sortTailFirst (edits : List TextEdit) (n : Nat) :
    (sortTailFirst edits).filter (insertsAt n) = edits.filter (insertsAt n) := by
  have hspan : insertsAt n = fun e => decide (e.span = ⟨n, n⟩) := by
    funext e
    simp [insertsAt, span]
  rw [hspan, filter_span_sortTailFirst]

end TextEdit

namespace Splice

open TextEdit

variable {path : Path} {text : String} {edits edits' es es' : List TextEdit}

/-! ## Refusals -/

/-- The check of an edit looks at nothing but its span. -/
theorem checkFit_congr {cs : List Char} {e e' : TextEdit} (h : e.span = e'.span) :
    checkFit path cs e = checkFit path cs e' := by
  have hstart : e.start = e'.start := congrArg Span.start h
  have hstop : e.stop = e'.stop := congrArg Span.stop h
  simp only [checkFit, h, hstart, hstop]

/-- The checks of single edits look at nothing but their spans. -/
theorem checkAll_congr {cs : List Char} (h : es.map span = es'.map span) :
    checkAll path cs es = checkAll path cs es' := by
  induction es generalizing es' with
  | nil => rw [List.map_eq_nil_iff.mp h.symm]
  | cons e es ih =>
    cases es' with
    | nil => cases h
    | cons e' es' =>
      obtain ⟨hhead, htail⟩ := List.cons.inj h
      rw [checkAll, checkAll, checkFit_congr hhead, ih htail]

/-- Nor does the check for overlaps. -/
theorem checkDisjoint_congr (h : es.map span = es'.map span) :
    WorkspaceEdit.checkDisjoint path es = WorkspaceEdit.checkDisjoint path es' := by
  induction es generalizing es' with
  | nil => rw [List.map_eq_nil_iff.mp h.symm]
  | cons e es ih =>
    cases es' with
    | nil => cases h
    | cons e' es' =>
      obtain ⟨hhead, htail⟩ := List.cons.inj h
      -- A single edit has no neighbour to overlap with.
      cases es with
      | nil =>
        rw [List.map_eq_nil_iff.mp htail.symm]
        rfl
      | cons f es =>
        cases es' with
        | nil => cases htail
        | cons f' es' =>
          have hnext := (List.cons.inj htail).1
          have hstart : e.start = e'.start := congrArg Span.start hhead
          have hstop : f.stop = f'.stop := congrArg Span.stop hnext
          rw [WorkspaceEdit.checkDisjoint, WorkspaceEdit.checkDisjoint, hhead, hnext, hstart,
            hstop, ih htail]

/-- A splice is refused by one of its two checks. -/
theorem apply_eq_error_iff {err : EditError} :
    apply path text edits = .error err ↔
      checkAll path text.toList (sortTailFirst edits) = .error err ∨
        checkAll path text.toList (sortTailFirst edits) = .ok () ∧
          WorkspaceEdit.checkDisjoint path (sortTailFirst edits) = .error err := by
  rw [apply, applyChars]
  cases checkAll path text.toList (sortTailFirst edits) with
  | error err' => simp [bind, Except.bind, Except.map]
  | ok u =>
    cases WorkspaceEdit.checkDisjoint path (sortTailFirst edits) with
    | error err' => simp [bind, Except.bind, Except.map]
    | ok u => simp [bind, Except.bind, Except.map, pure, Except.pure]

/-- The order in which edits are given does not matter to a refusal. -/
theorem apply_error_perm (hperm : edits.Perm edits') {err : EditError} :
    apply path text edits = .error err ↔ apply path text edits' = .error err := by
  have hspans := map_span_sortTailFirst hperm
  rw [apply_eq_error_iff, apply_eq_error_iff, checkAll_congr hspans, checkDisjoint_congr hspans]

/-! ## Inserted texts -/

/-- What those of the edits that insert at the offset put there, one after the other. -/
def inserted (es : List TextEdit) (n : Nat) : List UInt8 :=
  (es.filter (insertsAt n)).flatMap fun e => Text.bytes e.newText

section Cons

variable {e : TextEdit} {n : Nat}

/-- An insertion at the offset puts its text in front of the others. -/
theorem inserted_cons_of_insertsAt (h : e.insertsAt n = true) :
    inserted (e :: es) n = Text.bytes e.newText ++ inserted es n := by
  simp [inserted, h]

/-- Any other edit inserts nothing there. -/
theorem inserted_cons_of_not (h : ¬ e.insertsAt n = true) :
    inserted (e :: es) n = inserted es n := by
  simp [inserted, h]

/-- An edit that ends before the offset inserts nothing there. -/
theorem inserted_cons_of_stop_lt (h : e.stop < n) : inserted (e :: es) n = inserted es n := by
  apply inserted_cons_of_not
  rw [insertsAt_iff]
  omega

/-- Nothing is inserted in front of the end of the first span, unless the whole span is there. -/
theorem inserted_cons_of_lt_stop {length : Nat}
    (h : InOrder length e.stop (es.map replacement)) (hn : n < e.stop) :
    inserted (e :: es) n = [] := by
  have hnone : (e :: es).filter (insertsAt n) = [] := by
    rw [List.filter_eq_nil_iff]
    intro d hd hinserts
    -- The first edit ends behind `n`, and the others start at its end or later.
    have hat := insertsAt_iff.mp hinserts
    rcases List.mem_cons.mp hd with rfl | hd
    · omega
    · have hle : e.stop ≤ d.start := h.le_start _ (List.mem_map_of_mem hd)
      omega
  rw [inserted, hnone, List.flatMap_nil]

end Cons

/-- How much is inserted at an offset does not depend on the order of the edits. -/
theorem length_inserted_perm (hperm : es.Perm es') (n : Nat) :
    (inserted es n).length = (inserted es' n).length :=
  ((hperm.filter _).flatMap_right _).length_eq

/-- The edits have the same spans, and those that take something away put the same text there. -/
def Alike (es es' : List TextEdit) : Prop :=
  List.Forall₂ (fun e e' => e.span = e'.span ∧ (e.start < e.stop → e.newText = e'.newText)) es es'

/-- Edits are alike if they have the same spans and replacements of one span have one text. -/
theorem alike_of_map_span (hspans : es.map span = es'.map span)
    (htexts : ∀ e ∈ es, ∀ e' ∈ es', e.span = e'.span → e.start < e.stop →
      e.newText = e'.newText) : Alike es es' := by
  induction es generalizing es' with
  | nil =>
    rw [List.map_eq_nil_iff.mp hspans.symm]
    exact .nil
  | cons e es ih =>
    cases es' with
    | nil => cases hspans
    | cons e' es' =>
      obtain ⟨hhead, htail⟩ := List.cons.inj hspans
      refine .cons ⟨hhead, htexts e List.mem_cons_self e' List.mem_cons_self hhead⟩ (ih htail ?_)
      intro d hd d' hd'
      exact htexts d (List.mem_cons_of_mem _ hd) d' (List.mem_cons_of_mem _ hd')

/-- Disjoint edits that are given in two orders are alike once they are sorted: no two of them
    replace the same bytes. -/
theorem alike_of_perm (hperm : edits.Perm edits') (hdisjoint : edits.Pairwise TextEdit.Disjoint) :
    Alike (sortTailFirst edits).reverse (sortTailFirst edits').reverse := by
  apply alike_of_map_span
  · rw [List.map_reverse, List.map_reverse, map_span_sortTailFirst hperm]
  · intro e he e' he' hspan hlt
    have he : e ∈ edits := (sortTailFirst_perm edits).mem_iff.mp (List.mem_reverse.mp he)
    have he' : e' ∈ edits :=
      hperm.mem_iff.mpr ((sortTailFirst_perm edits').mem_iff.mp (List.mem_reverse.mp he'))
    have hstart : e.start = e'.start := congrArg Span.start hspan
    have hstop : e.stop = e'.stop := congrArg Span.stop hspan
    -- Two different edits with one span that is not empty would overlap.
    by_cases hsame : e = e'
    · rw [hsame]
    · have hapart : e.Disjoint e' := hdisjoint.forall he he' hsame
      unfold TextEdit.Disjoint at hapart
      omega

/-- As far as `f` can tell, the edits insert the same at the offset `done`, behind what was put
    there before, and at every later offset. -/
def InsertSame {β : Type} (f : List UInt8 → β) (front front' : List UInt8) (done : Nat)
    (es es' : List TextEdit) : Prop :=
  f (front ++ inserted es done) = f (front' ++ inserted es' done) ∧
    ∀ n, done < n → f (inserted es n) = f (inserted es' n)

section Steps

variable {β : Type} {f : List UInt8 → β} {front front' : List UInt8} {done length : Nat}
  {e e' : TextEdit}

/-- An insertion at `done` is added to what was put there before. -/
theorem insertSame_cons_here (hhere : e.insertsAt done = true) (hhere' : e'.insertsAt done = true) :
    InsertSame f front front' done (e :: es) (e' :: es') ↔
      InsertSame f (front ++ Text.bytes e.newText) (front' ++ Text.bytes e'.newText) done
        es es' := by
  obtain ⟨-, hstop⟩ := insertsAt_iff.mp hhere
  obtain ⟨-, hstop'⟩ := insertsAt_iff.mp hhere'
  unfold InsertSame
  rw [inserted_cons_of_insertsAt hhere, inserted_cons_of_insertsAt hhere', List.append_assoc,
    List.append_assoc]
  refine and_congr_right fun _ => forall₂_congr fun n hn => ?_
  rw [inserted_cons_of_stop_lt (by omega), inserted_cons_of_stop_lt (by omega)]

/-- At the end of its span, an edit puts the same text as an alike one, or inserts its text
    there. -/
theorem inserted_cons_stop (es es' : List TextEdit) (hspan : e.span = e'.span)
    (htext : e.start < e.stop → e.newText = e'.newText) (hle : e.start ≤ e.stop) :
    ∃ mid, Text.bytes e.newText ++ inserted es e.stop = mid ++ inserted (e :: es) e.stop ∧
      Text.bytes e'.newText ++ inserted es' e.stop = mid ++ inserted (e' :: es') e.stop := by
  have hstart : e'.start = e.start := congrArg Span.start hspan.symm
  have hstop : e'.stop = e.stop := congrArg Span.stop hspan.symm
  -- An edit that replaces something inserts nothing at its end, so its text is the part in the
  -- middle. Of an insertion nothing is left for the middle.
  by_cases hlt : e.start < e.stop
  · have hnot : ¬ e.insertsAt e.stop = true ∧ ¬ e'.insertsAt e.stop = true := by
      simp only [insertsAt_iff]
      omega
    exact ⟨Text.bytes e.newText, by rw [inserted_cons_of_not hnot.1],
      by rw [htext hlt, inserted_cons_of_not hnot.2]⟩
  · have hat : e.insertsAt e.stop = true ∧ e'.insertsAt e.stop = true :=
      ⟨insertsAt_iff.mpr ⟨by omega, rfl⟩, insertsAt_iff.mpr ⟨by omega, hstop⟩⟩
    exact ⟨[], by rw [inserted_cons_of_insertsAt hat.1, List.nil_append],
      by rw [inserted_cons_of_insertsAt hat.2, List.nil_append]⟩

/-- An edit that ends behind `done` settles what was put there, and starts anew at its end. -/
theorem insertSame_cons_later (hcancel : ∀ m x y, f (m ++ x) = f (m ++ y) ↔ f x = f y)
    (hspan : e.span = e'.span) (htext : e.start < e.stop → e.newText = e'.newText)
    (hle : e.start ≤ e.stop) (hrest : InOrder length e.stop (es.map replacement))
    (hrest' : InOrder length e.stop (es'.map replacement)) (hlt : done < e.stop) :
    InsertSame f front front' done (e :: es) (e' :: es') ↔
      f front = f front' ∧
        InsertSame f (Text.bytes e.newText) (Text.bytes e'.newText) e.stop es es' := by
  have hstop : e'.stop = e.stop := congrArg Span.stop hspan.symm
  have hbefore (n : Nat) (hn : n < e.stop) :
      inserted (e :: es) n = [] ∧ inserted (e' :: es') n = [] :=
    ⟨inserted_cons_of_lt_stop hrest hn, inserted_cons_of_lt_stop (hstop ▸ hrest') (by omega)⟩
  have hafter (n : Nat) (hn : e.stop < n) :
      inserted (e :: es) n = inserted es n ∧ inserted (e' :: es') n = inserted es' n :=
    ⟨inserted_cons_of_stop_lt hn, inserted_cons_of_stop_lt (by omega)⟩
  obtain ⟨mid, hmid, hmid'⟩ := inserted_cons_stop es es' hspan htext hle
  unfold InsertSame
  rw [(hbefore done hlt).1, (hbefore done hlt).2, List.append_nil, List.append_nil, hmid, hmid',
    hcancel]
  refine and_congr_right fun _ => ⟨?_, ?_⟩
  · intro h
    refine ⟨h e.stop hlt, fun n hn => ?_⟩
    rw [← (hafter n hn).1, ← (hafter n hn).2]
    exact h n (by omega)
  · rintro ⟨hat, hbehind⟩ n -
    -- In front of the end of the span nothing is inserted, and behind it the rest decides.
    rcases Nat.lt_trichotomy n e.stop with hn | rfl | hn
    · rw [(hbefore n hn).1, (hbefore n hn).2]
    · exact hat
    · rw [(hafter n hn).1, (hafter n hn).2]
      exact hbehind n hn

end Steps

/-- Two substitutions that differ in their insertions at most agree exactly if these put the same
    text at every offset. `front` and `front'` are what was put at the offset `done` before. -/
theorem substitute_eq_iff {bytes front front' : List UInt8} {done : Nat} (halike : Alike es es')
    (horder : InOrder bytes.length done (es.map replacement))
    (horder' : InOrder bytes.length done (es'.map replacement))
    (hlen : InsertSame List.length front front' done es es') :
    front ++ substitute bytes done (es.map replacement) =
        front' ++ substitute bytes done (es'.map replacement) ↔
      InsertSame id front front' done es es' := by
  -- Texts of the same length can be told apart byte by byte, so each edit is compared on its own.
  induction halike generalizing front front' done with
  | nil => simp [substitute, InsertSame, inserted]
  | @cons e e' es es' hhead htail ih =>
    obtain ⟨hspan, htext⟩ := hhead
    have hstart : e'.start = e.start := congrArg Span.start hspan.symm
    have hstop : e'.stop = e.stop := congrArg Span.stop hspan.symm
    obtain ⟨hdone, hle, hrest⟩ := inOrder_cons.mp horder
    have hrest' := (inOrder_cons.mp horder').2.2
    rw [hstop] at hrest'
    rw [substitute_cons, substitute_cons, hstart, hstop]
    -- An edit that ends at `done` is an insertion there, and what was put there before grows by its
    -- text.
    by_cases hhere : e.stop = done
    · have hat : e.insertsAt done = true ∧ e'.insertsAt done = true := by
        simp only [insertsAt_iff]
        omega
      have hempty : slice bytes done e.start = [] := by
        simp [slice, show e.start = done by omega]
      rw [hhere] at hrest hrest' ⊢
      rw [insertSame_cons_here hat.1 hat.2] at hlen ⊢
      rw [← ih hrest hrest' hlen, hempty]
      simp only [List.nil_append, List.append_assoc]
    · have hlt : done < e.stop := by omega
      rw [insertSame_cons_later (by simp) hspan htext hle hrest hrest' hlt] at hlen ⊢
      rw [← ih hrest hrest' hlen.2]
      simp only [List.append_assoc, id_eq]
      constructor
      · intro h
        obtain ⟨hfront, hbehind⟩ := List.append_inj h hlen.1
        exact ⟨hfront, List.append_cancel_left hbehind⟩
      · rintro ⟨hfront, hbehind⟩
        rw [hfront, hbehind]

/-- The new texts of two splices agree exactly if their insertions put the same text at every
    offset. -/
theorem apply_ok_eq_iff {out out' : String} (hperm : edits.Perm edits')
    (h : apply path text edits = .ok out) (h' : apply path text edits' = .ok out') :
    out = out' ↔ ∀ n, inserted edits.reverse n = inserted edits'.reverse n := by
  obtain ⟨horder, hbytes⟩ := apply_ok h
  obtain ⟨horder', hbytes'⟩ := apply_ok h'
  have hsorted (es : List TextEdit) (n : Nat) :
      inserted (sortTailFirst es).reverse n = inserted es.reverse n := by
    rw [inserted, inserted, List.filter_reverse, List.filter_reverse, filter_sortTailFirst]
  -- What is inserted at an offset has the same length in both orders.
  have hlen (n : Nat) : (inserted (sortTailFirst edits).reverse n).length =
      (inserted (sortTailFirst edits').reverse n).length := by
    rw [hsorted, hsorted]
    exact length_inserted_perm
      ((List.reverse_perm _).trans (hperm.trans (List.reverse_perm _).symm)) n
  have hiff := @substitute_eq_iff _ _ _ [] [] _
    (alike_of_perm hperm (apply_eq_ok_iff.mp h).2.1) horder horder' ⟨hlen 0, fun n _ => hlen n⟩
  have hout : out = out' ↔ Text.bytes out = Text.bytes out' :=
    ⟨fun heq => heq ▸ rfl, Text.bytes_injective⟩
  rw [hout, hbytes, hbytes']
  refine hiff.trans ?_
  simp only [InsertSame, id_eq, List.nil_append, hsorted]
  constructor
  · rintro ⟨hzero, hpos⟩ n
    rcases Nat.eq_zero_or_pos n with rfl | hn
    · exact hzero
    · exact hpos n hn
  · intro hall
    exact ⟨hall 0, fun n _ => hall n⟩

/-- Insertions of one text are the same in every order. -/
theorem inserted_eq_of_perm (hperm : es.Perm es')
    (hsame : ∀ a ∈ es, ∀ b ∈ es, a.start = a.stop → a.span = b.span → a.newText = b.newText)
    (n : Nat) : inserted es n = inserted es' n := by
  have hconstant : ∀ l : List TextEdit, (∀ e ∈ l, e ∈ es) →
      ((l.filter (insertsAt n)).map fun e => Text.bytes e.newText).Pairwise (· = ·) := by
    intro l hl
    rw [List.pairwise_map]
    refine List.pairwise_of_forall_mem_list fun a ha b hb => ?_
    obtain ⟨hmem, hat⟩ := List.mem_filter.mp ha
    obtain ⟨hmem', hat'⟩ := List.mem_filter.mp hb
    obtain ⟨hstart, hstop⟩ := insertsAt_iff.mp hat
    obtain ⟨hstart', hstop'⟩ := insertsAt_iff.mp hat'
    have hspan : a.span = b.span := by
      simp only [span, hstart, hstop, hstart', hstop']
    rw [hsame a (hl a hmem) b (hl b hmem') (by omega) hspan]
  -- All texts that are inserted at the offset are equal, so their order cannot be told.
  rw [inserted, inserted, List.flatMap_def, List.flatMap_def]
  congr 1
  refine ((hperm.filter _).map _).eq_of_pairwise (fun a b _ _ hab _ => hab)
    (hconstant es fun e he => he) (hconstant es' fun e he => hperm.mem_iff.mpr he)

/-- The order in which edits are given does not matter to a refusal. To the new text it matters
    exactly where several edits insert at one offset, since these put their texts one behind the
    other, the last given first. So it does not matter where all insertions at one offset have the
    same text. -/
theorem apply_given_order {path : Path} {text : String} {edits edits' : List TextEdit}
    (hperm : edits.Perm edits') :
    (∀ err, apply path text edits = .error err ↔ apply path text edits' = .error err) ∧
      (apply path text edits = apply path text edits' ↔
        (∃ err, apply path text edits = .error err) ∨
          ∀ n, inserted edits.reverse n = inserted edits'.reverse n) ∧
      ((∀ a ∈ edits, ∀ b ∈ edits, a.start = a.stop → a.span = b.span → a.newText = b.newText) →
        apply path text edits = apply path text edits') := by
  have hrefused (err : EditError) :
      apply path text edits = .error err ↔ apply path text edits' = .error err :=
    apply_error_perm hperm
  have hexact : apply path text edits = apply path text edits' ↔
      (∃ err, apply path text edits = .error err) ∨
        ∀ n, inserted edits.reverse n = inserted edits'.reverse n := by
    -- Both splices are refused or none is.
    cases h : apply path text edits with
    | error err => simp [(hrefused err).mp h]
    | ok out =>
      cases h' : apply path text edits' with
      | error err =>
        rw [(hrefused err).mpr h'] at h
        cases h
      | ok out' => simp [apply_ok_eq_iff hperm h h']
  refine ⟨hrefused, hexact, fun hsame => hexact.mpr (.inr fun n => ?_)⟩
  apply inserted_eq_of_perm
  · exact (List.reverse_perm _).trans (hperm.trans (List.reverse_perm _).symm)
  · simpa only [List.mem_reverse] using hsame

/-- Two insertions of one text may be given in any order, and so may edits that are refused. -/
theorem apply_given_order_twice :
    apply ⟨"a.gml"⟩ "hp;" [⟨⟨"a.gml"⟩, 0, 0, "!"⟩, ⟨⟨"a.gml"⟩, 0, 2, "é"⟩, ⟨⟨"a.gml"⟩, 0, 0, "!"⟩] =
        apply ⟨"a.gml"⟩ "hp;"
          [⟨⟨"a.gml"⟩, 0, 2, "é"⟩, ⟨⟨"a.gml"⟩, 0, 0, "!"⟩, ⟨⟨"a.gml"⟩, 0, 0, "!"⟩] ∧
      apply ⟨"a.gml"⟩ "é;" [⟨⟨"a.gml"⟩, 1, 2, ""⟩, ⟨⟨"a.gml"⟩, 2, 1, ""⟩] =
        .error (.invalidRange ⟨"a.gml"⟩ ⟨2, 1⟩) := by
  refine ⟨(apply_given_order (by decide)).2.2 (by decide), ?_⟩
  refine ((apply_given_order (List.Perm.swap _ _ [])).1 _).mp ?_
  rw [apply, applyChars, TextEdit.sortTailFirst, List.mergeSort_of_pairwise (by decide)]
  decide

/-- Two texts inserted at one offset. The order in which they are given matters. -/
theorem apply_order_matters :
    [⟨⟨"a.gml"⟩, 0, 0, "a"⟩, ⟨⟨"a.gml"⟩, 0, 0, "b"⟩].Perm
        [⟨⟨"a.gml"⟩, 0, 0, "b"⟩, (⟨⟨"a.gml"⟩, 0, 0, "a"⟩ : TextEdit)] ∧
      apply ⟨"a.gml"⟩ "x;" [⟨⟨"a.gml"⟩, 0, 0, "a"⟩, ⟨⟨"a.gml"⟩, 0, 0, "b"⟩] ≠
        apply ⟨"a.gml"⟩ "x;" [⟨⟨"a.gml"⟩, 0, 0, "b"⟩, ⟨⟨"a.gml"⟩, 0, 0, "a"⟩] := by
  have hfirst : apply ⟨"a.gml"⟩ "x;" [⟨⟨"a.gml"⟩, 0, 0, "a"⟩, ⟨⟨"a.gml"⟩, 0, 0, "b"⟩] =
      .ok "bax;" :=
    apply_of_tailFirst (by decide) (by decide) (by decide)
  have hsecond : apply ⟨"a.gml"⟩ "x;" [⟨⟨"a.gml"⟩, 0, 0, "b"⟩, ⟨⟨"a.gml"⟩, 0, 0, "a"⟩] =
      .ok "abx;" :=
    apply_of_tailFirst (by decide) (by decide) (by decide)
  refine ⟨.swap _ _ _, ?_⟩
  rw [hfirst, hsecond]
  decide

end Splice
end HotRename
