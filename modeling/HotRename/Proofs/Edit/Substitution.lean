import HotRename.Edit.Splice
import HotRename.Proofs.Except
import HotRename.Proofs.Text.Bytes

/-!
# Splicing as simultaneous substitution

Splicing carries out one edit after the other, on a text that the edits before have changed
already. `substitute` is what it amounts to: every span of the old text is replaced at once, and
the bytes between the spans are kept. Main statements:

* `checkDisjoint_pairwise`  edits that pass the check for overlaps lie one behind the other
* `run_reverse`             the edits carried out from tail to head are a substitution
* `apply_ok`                so is every splice that is not refused
-/

namespace HotRename

namespace TextEdit

/-! ## The order of edits -/

/-- An edit is carried out before those that start earlier, and before those that start with it and
    end earlier. -/
theorem tailFirst_iff {a b : TextEdit} :
    a.tailFirst b = true ↔ b.start < a.start ∨ b.start = a.start ∧ b.stop ≤ a.stop := by
  simp [tailFirst]

/-- The order of edits is transitive. -/
theorem tailFirst_trans {a b c : TextEdit} (hab : a.tailFirst b = true)
    (hbc : b.tailFirst c = true) : a.tailFirst c = true := by
  rw [tailFirst_iff] at hab hbc ⊢
  omega

/-- Of two edits one may be carried out before the other. -/
theorem tailFirst_total (a b : TextEdit) : (a.tailFirst b || b.tailFirst a) = true := by
  rw [Bool.or_eq_true, tailFirst_iff, tailFirst_iff]
  omega

/-- Sorting loses no edit and adds none. -/
theorem sortTailFirst_perm (edits : List TextEdit) : (sortTailFirst edits).Perm edits :=
  List.mergeSort_perm _ _

/-- Sorted edits stand in the order in which they are carried out. -/
theorem sortTailFirst_pairwise (edits : List TextEdit) :
    (sortTailFirst edits).Pairwise fun a b => a.tailFirst b = true :=
  @List.pairwise_mergeSort TextEdit tailFirst (fun _ _ _ => tailFirst_trans) tailFirst_total edits

/-- Sorting a second time changes nothing. -/
@[simp] theorem sortTailFirst_sortTailFirst (edits : List TextEdit) :
    sortTailFirst (sortTailFirst edits) = sortTailFirst edits :=
  List.mergeSort_of_pairwise (sortTailFirst_pairwise edits)

/-! ## Replacements -/

/-- The span that an edit replaces, and the text that it puts there. -/
def replacement (e : TextEdit) : Span × String :=
  (e.span, e.newText)

/-- The replacements made by the edits of one file, in the order in which they stand in it. -/
def replacements (edits : List TextEdit) : List (Span × String) :=
  (sortTailFirst edits).reverse.map replacement

/-- The replacements do not depend on whether the edits are sorted already. -/
@[simp] theorem replacements_sortTailFirst (edits : List TextEdit) :
    replacements (sortTailFirst edits) = replacements edits := by
  rw [replacements, sortTailFirst_sortTailFirst, replacements]

end TextEdit

namespace Splice

/-- The bytes with every span replaced at once. The bytes in front of `done` are left out, since
    they have been taken over before. -/
def substitute (bytes : List UInt8) : (done : Nat) → List (Span × String) → List UInt8
  | done, [] => bytes.drop done
  | done, (span, new) :: rest =>
    (bytes.take span.start).drop done ++ Text.bytes new ++ substitute bytes span.stop rest

/-- The spans lie one behind the other, between the offset `done` and the end of a text of
    `length` bytes. -/
def InOrder (length : Nat) : (done : Nat) → List (Span × String) → Prop
  | done, [] => done ≤ length
  | done, (span, _) :: rest =>
    done ≤ span.start ∧ span.start ≤ span.stop ∧ InOrder length span.stop rest

/-- Spans that lie behind an offset leave it inside the text. -/
theorem InOrder.le {length done : Nat} {rs : List (Span × String)} (h : InOrder length done rs) :
    done ≤ length := by
  induction rs generalizing done with
  | nil => exact h
  | cons r rs ih =>
    obtain ⟨hdone, hspan, hrest⟩ := h
    have := ih hrest
    omega

/-- They lie behind every earlier offset as well. -/
theorem InOrder.mono {length done done' : Nat} {rs : List (Span × String)} (hle : done' ≤ done)
    (h : InOrder length done rs) : InOrder length done' rs := by
  cases rs with
  | nil => exact Nat.le_trans hle h
  | cons r rs => exact ⟨Nat.le_trans hle h.1, h.2.1, h.2.2⟩

/-- All spans start at the offset or behind it, not only the first one. -/
theorem InOrder.le_start {length done : Nat} {rs : List (Span × String)}
    (h : InOrder length done rs) : ∀ r ∈ rs, done ≤ r.1.start := by
  induction rs generalizing done with
  | nil => exact fun _ hr => nomatch hr
  | cons r rs ih =>
    obtain ⟨hdone, hspan, hrest⟩ := h
    intro r' hr'
    rcases List.mem_cons.mp hr' with rfl | hr'
    · exact hdone
    · have := ih hrest r' hr'
      omega

/-- Spans that lie one behind the other are pairwise disjoint. -/
theorem InOrder.pairwise {length done : Nat} {rs : List (Span × String)}
    (h : InOrder length done rs) : rs.Pairwise fun a b => a.1.stop ≤ b.1.start := by
  induction rs generalizing done with
  | nil => exact .nil
  | cons r rs ih => exact .cons h.2.2.le_start (ih h.2.2)

/-- In front of the first span nothing changes. -/
theorem take_substitute {bytes : List UInt8} {n : Nat} {rs : List (Span × String)}
    (h : InOrder bytes.length n rs) : (substitute bytes 0 rs).take n = bytes.take n := by
  cases rs with
  | nil => simp [substitute]
  | cons r rs =>
    obtain ⟨hn, hspan, hrest⟩ := h
    -- The first part that is kept reaches to the first span, so to `n` at least.
    have hlen : (bytes.take r.1.start).length = r.1.start := by
      rw [List.length_take]
      have := hrest.le
      omega
    rw [substitute, List.drop_zero, List.append_assoc, List.take_append_of_le_length (by omega),
      List.take_take, Nat.min_eq_left hn]

/-- Leaving out bytes in front of the first span leaves out the same bytes of the result. -/
theorem drop_substitute {bytes : List UInt8} {n : Nat} {rs : List (Span × String)}
    (h : InOrder bytes.length n rs) : (substitute bytes 0 rs).drop n = substitute bytes n rs := by
  cases rs with
  | nil => simp [substitute]
  | cons r rs =>
    obtain ⟨hn, hspan, hrest⟩ := h
    have hlen : (bytes.take r.1.start).length = r.1.start := by
      rw [List.length_take]
      have := hrest.le
      omega
    rw [substitute, substitute, List.drop_zero, List.append_assoc,
      List.drop_append_of_le_length (by omega), List.append_assoc]

/-! ## Edits carried out from tail to head -/

/-- The first edit of the text is carried out last. -/
theorem run_reverse_cons (text : List Char) (e : TextEdit) (es : List TextEdit) :
    run text (e :: es).reverse = step (run text es.reverse) e := by
  simp [run, List.foldl_append]

/-- The edits, given in the order in which they stand in the text and carried out from tail to
    head, replace all spans at once. An offset in front of the first span that is a boundary of
    the old text is one of the new text. -/
theorem run_reverse {text : List Char} {es : List TextEdit}
    (hfit : ∀ e ∈ es, Text.isBoundary e.start text = true ∧ Text.isBoundary e.stop text = true)
    (horder : InOrder (Text.byteLength text) 0 (es.map TextEdit.replacement)) :
    Text.utf8 (run text es.reverse) =
        substitute (Text.utf8 text) 0 (es.map TextEdit.replacement) ∧
      ∀ n, Text.isBoundary n text = true →
        InOrder (Text.byteLength text) n (es.map TextEdit.replacement) →
        Text.isBoundary n (run text es.reverse) = true := by
  -- The edit at the head of the list is carried out last, so the induction goes with the text
  -- that the edits behind it have made.
  induction es with
  | nil => exact ⟨by simp [run, substitute], fun n hn _ => hn⟩
  | cons e es ih =>
    obtain ⟨-, hspan, hrest⟩ := horder
    obtain ⟨hbytes, hkept⟩ := ih (fun e' he' => hfit e' (List.mem_cons_of_mem _ he'))
      (hrest.mono (Nat.zero_le _))
    obtain ⟨hstart, hstop⟩ := hfit e List.mem_cons_self
    -- Both ends of the edit lie in front of the spans behind it, so they are still boundaries.
    have horder' : InOrder (Text.byteLength text) e.start (es.map TextEdit.replacement) :=
      hrest.mono hspan
    have hstart' := hkept e.start hstart horder'
    have hstop' := hkept e.stop hstop hrest
    rw [run_reverse_cons, step]
    constructor
    · rw [Text.utf8_replaceBytes _ hstart' hstop', hbytes,
        take_substitute (by rwa [Text.length_utf8]), drop_substitute (by rwa [Text.length_utf8]),
        List.map_cons, TextEdit.replacement, substitute, List.drop_zero, Text.bytes_eq_utf8]
      rfl
    · intro n hn hn'
      obtain ⟨hle, -, -⟩ := hn'
      exact Text.isBoundary_replaceBytes _ hle
        (hkept n hn (horder'.mono hle)) hstart'

/-! ## What the checks establish -/

/-- An edit is accepted if it is not backward and both of its ends are boundaries. -/
theorem checkFit_ok_iff {path : Path} {text : List Char} {e : TextEdit} :
    checkFit path text e = .ok () ↔
      e.start ≤ e.stop ∧ Text.isBoundary e.start text = true ∧
        Text.isBoundary e.stop text = true := by
  unfold checkFit
  split
  · simp
    omega
  · rename_i hrange
    split
    -- An end that is a boundary is inside the text, so one of the ends is none.
    · rename_i hbad
      simp only [reduceCtorEq, false_iff]
      rintro ⟨-, hstart, hstop⟩
      have := Text.boundary_le hstop
      simp [hstart, hstop] at hbad
      omega
    · rename_i hgood
      simp only [Bool.or_eq_true, decide_eq_true_eq, Bool.not_eq_true', not_or, Nat.not_lt,
        Bool.not_eq_false] at hgood
      exact ⟨fun _ => ⟨by omega, hgood.1.2, hgood.2⟩, fun _ => rfl⟩

/-- If all edits are accepted, each of them is. -/
theorem checkAll_ok {path : Path} {text : List Char} {es : List TextEdit}
    (h : checkAll path text es = .ok ()) : ∀ e ∈ es, checkFit path text e = .ok () := by
  induction es with
  | nil => exact fun e he => absurd he (List.not_mem_nil)
  | cons e es ih =>
    obtain ⟨_, hfit, hrest⟩ := Except.bind_eq_ok.mp h
    intro e' he'
    rcases List.mem_cons.mp he' with rfl | he'
    · exact hfit
    · exact ih hrest e' he'

/-- Edits that pass the check for overlaps lie one behind the other: not only neighbours but any
    two of them are disjoint, since no span ends before it starts. -/
theorem checkDisjoint_pairwise {path : Path} {es : List TextEdit}
    (hrange : ∀ e ∈ es, e.start ≤ e.stop) (h : WorkspaceEdit.checkDisjoint path es = .ok ()) :
    es.Pairwise fun later earlier => earlier.stop ≤ later.start := by
  induction es with
  | nil => exact .nil
  | cons e es ih =>
    cases es with
    | nil => exact List.pairwise_singleton _ _
    | cons e' es =>
      simp only [WorkspaceEdit.checkDisjoint] at h
      split at h
      · exact nomatch h
      · rename_i hle
        have htail := ih (fun x hx => hrange x (List.mem_cons_of_mem _ hx)) h
        refine List.Pairwise.cons ?_ htail
        intro x hx
        rcases List.mem_cons.mp hx with rfl | hx
        · omega
        -- Later edits end before the neighbour starts, which ends before `e` starts.
        · have hx' : x.stop ≤ e'.start := (List.pairwise_cons.mp htail).1 x hx
          have he' := hrange e' (by simp)
          omega

/-- Edits that lie one behind the other inside a text are replacements in order. -/
theorem inOrder_of_pairwise {length done : Nat} {es : List TextEdit}
    (hfit : ∀ e ∈ es, e.start ≤ e.stop ∧ e.stop ≤ length)
    (hpair : es.Pairwise fun a b => a.stop ≤ b.start)
    (hdone : ∀ e ∈ es, done ≤ e.start) (hle : done ≤ length) :
    InOrder length done (es.map TextEdit.replacement) := by
  induction es generalizing done with
  | nil => exact hle
  | cons e es ih =>
    obtain ⟨hhead, htail⟩ := List.pairwise_cons.mp hpair
    obtain ⟨hspan, hstop⟩ := hfit e List.mem_cons_self
    exact ⟨hdone e List.mem_cons_self, hspan,
      ih (fun e' he' => hfit e' (List.mem_cons_of_mem _ he')) htail hhead hstop⟩

/-! ## Splices -/

/-- A splice that is not refused replaces all spans of the text at once, and these lie one behind
    the other inside the text. -/
theorem apply_ok {path : Path} {text out : String} {edits : List TextEdit}
    (h : apply path text edits = .ok out) :
    InOrder (Text.bytes text).length 0 (TextEdit.replacements edits) ∧
      Text.bytes out = substitute (Text.bytes text) 0 (TextEdit.replacements edits) := by
  simp only [apply, applyChars, Except.map_eq_ok, Except.bind_eq_ok] at h
  obtain ⟨chars, ⟨_, hall, _, hdisjoint, hchars⟩, rfl⟩ := h
  cases hchars
  have hfit : ∀ e ∈ (TextEdit.sortTailFirst edits).reverse,
      e.start ≤ e.stop ∧ Text.isBoundary e.start text.toList = true ∧
        Text.isBoundary e.stop text.toList = true := by
    intro e he
    exact checkFit_ok_iff.mp (checkAll_ok hall e (List.mem_reverse.mp he))
  have hpair := checkDisjoint_pairwise
    (fun e he => (hfit e (List.mem_reverse.mpr he)).1) hdisjoint
  -- The check on the text as it was makes the spans fit; the check for overlaps orders them.
  have horder : InOrder (Text.byteLength text.toList) 0 (TextEdit.replacements edits) := by
    refine inOrder_of_pairwise ?_ (List.pairwise_reverse.mpr hpair) (fun _ _ => Nat.zero_le _)
      (Nat.zero_le _)
    intro e he
    exact ⟨(hfit e he).1, Text.boundary_le (hfit e he).2.2⟩
  rw [Text.bytes_ofList, Text.bytes_eq_utf8, Text.length_utf8]
  refine ⟨horder, ?_⟩
  have hrun := (run_reverse (fun e he => (hfit e he).2) horder).1
  rwa [List.reverse_reverse] at hrun

/-- Edits that are given tail first are carried out in the order in which they are given. -/
theorem apply_of_tailFirst {path : Path} {text : String} {edits : List TextEdit}
    (h : edits.Pairwise fun a b => TextEdit.tailFirst a b = true)
    (hfit : checkAll path text.toList edits = .ok ())
    (hdisjoint : WorkspaceEdit.checkDisjoint path edits = .ok ()) :
    apply path text edits = .ok (String.ofList (run text.toList edits)) := by
  rw [apply, applyChars, TextEdit.sortTailFirst, List.mergeSort_of_pairwise h]
  simp only [hfit, hdisjoint, Except.ok_bind]
  rfl

end Splice

/-- One of the edits ends before the other starts. -/
def TextEdit.Disjoint (a b : TextEdit) : Prop :=
  a.stop ≤ b.start ∨ b.stop ≤ a.start

/-- Edits whose replacements lie one behind the other are pairwise disjoint. -/
theorem TextEdit.pairwise_disjoint {length : Nat} {edits : List TextEdit}
    (h : Splice.InOrder length 0 (replacements edits)) : edits.Pairwise Disjoint := by
  have hsorted := h.pairwise
  rw [replacements, List.pairwise_map, List.pairwise_reverse] at hsorted
  exact ((sortTailFirst_perm edits).pairwise_iff Or.symm).mp (hsorted.imp .inr)

end HotRename
