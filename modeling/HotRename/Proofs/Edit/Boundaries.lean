import HotRename.Proofs.Edit.Disjoint

/-!
# Splices stay between characters

All checks of a splice are made on the text as it was, while the edits are carried out on a text
that changes. Yet every edit is carried out between characters of the text that it finds, whatever
was put in behind it. And a valid workspace edit is refused by a splice only where one of its edits
does not fit the text. Main statements:

* `Text.isBoundary_iff_isValid`   a boundary is a valid position of the text
* `Text.isBoundary_eq_false_iff`  any other offset is behind the text or inside a character
* `fits_run`                      an edit still fits after those behind it
* `apply_eq_error`                what a splice of a valid group refuses
* `apply_between_characters`      every step of a splice is safe, and only misfits are refused
-/

namespace HotRename

namespace Text

/-- The offset is behind the first byte of a character and in front of its end. -/
def Inside (n : Nat) (cs : List Char) : Prop :=
  ∃ before c after, cs = before ++ c :: after ∧ byteLength before < n ∧
    n < byteLength before + c.utf8Size

/-- An empty text has no character that an offset could be inside of. -/
theorem not_inside_nil (n : Nat) : ¬ Inside n [] := by
  rintro ⟨before, c, after, hsplit, -, -⟩
  simp at hsplit

/-- An offset is inside the first character or, counted from its end, inside a later one. -/
theorem inside_cons {n : Nat} {c : Char} {cs : List Char} :
    Inside n (c :: cs) ↔
      0 < n ∧ n < c.utf8Size ∨ c.utf8Size ≤ n ∧ Inside (n - c.utf8Size) cs := by
  constructor
  · rintro ⟨before, c', after, hsplit, hbehind, hfront⟩
    -- Either the character around the offset is the first one, or it lies behind the first one.
    cases before with
    | nil =>
      simp only [List.nil_append, List.cons.injEq] at hsplit
      simp only [byteLength, ← hsplit.1] at hbehind hfront
      exact .inl ⟨hbehind, by omega⟩
    | cons b before =>
      simp only [List.cons_append, List.cons.injEq] at hsplit
      obtain ⟨rfl, hsplit⟩ := hsplit
      simp only [byteLength] at hbehind hfront
      exact .inr ⟨by omega, before, c', after, hsplit, by omega, by omega⟩
  · rintro (⟨hpos, hlt⟩ | ⟨hle, before, c', after, rfl, hbehind, hfront⟩)
    · exact ⟨[], c, cs, rfl, hpos, by simpa [byteLength] using hlt⟩
    · refine ⟨c :: before, c', after, rfl, ?_, ?_⟩
      · rw [byteLength]
        omega
      · rw [byteLength]
        omega

/-- An offset that is no boundary is behind the text or inside one of its characters. -/
theorem isBoundary_eq_false_iff {n : Nat} {cs : List Char} :
    isBoundary n cs = false ↔ byteLength cs < n ∨ Inside n cs := by
  induction cs generalizing n with
  | nil =>
    cases n with
    | zero => simp [isBoundary, byteLength, not_inside_nil]
    | succ n => simp [isBoundary, byteLength]
  | cons c cs ih =>
    have hpos := c.utf8Size_pos
    cases n with
    | zero =>
      have hfirst : ¬ c.utf8Size ≤ 0 := by omega
      simp [isBoundary, inside_cons, hfirst]
    | succ n =>
      rw [isBoundary, inside_cons, byteLength]
      by_cases hle : c.utf8Size ≤ n + 1
      · -- The first character is passed, and the rest of the text decides.
        have hnot : ¬ n + 1 < c.utf8Size := by omega
        have hlen : c.utf8Size + byteLength cs < n + 1 ↔ byteLength cs < n + 1 - c.utf8Size := by
          omega
        simp only [hle, decide_true, Bool.true_and, ih, hlen, hnot, and_false, true_and, false_or]
      · have hlt : n + 1 < c.utf8Size := by omega
        simp [hle, hlt]

/-- The length in bytes, as the library counts it. -/
theorem utf8ByteSize_ofList (cs : List Char) : (String.ofList cs).utf8ByteSize = byteLength cs := by
  rw [← length_utf8, ← bytes_ofList]
  rfl

/-- The boundaries of the characters are the valid positions of the text. -/
theorem isBoundary_iff_isValid {n : Nat} {cs : List Char} :
    isBoundary n cs = true ↔ String.Pos.Raw.IsValid (String.ofList cs) ⟨n⟩ := by
  rw [isBoundary_iff, String.Pos.Raw.isValid_iff_exists_append]
  constructor
  · rintro ⟨a, b, rfl, rfl⟩
    refine ⟨String.ofList a, String.ofList b, String.ofList_append, ?_⟩
    rw [← utf8ByteSize_ofList]
    rfl
  · rintro ⟨a, b, hsplit, hend⟩
    refine ⟨a.toList, b.toList, ?_, ?_⟩
    · rw [← String.toList_append, ← hsplit, String.toList_ofList]
    · rw [← utf8ByteSize_ofList, String.ofList_toList]
      exact congrArg String.Pos.Raw.byteIdx hend.symm

end Text

namespace Splice

open TextEdit

/-! ## Every step -/

/-- The span of the edit can be replaced in the text: it does not end before it starts or behind
    the text, and both ends are valid positions. -/
def Replaceable (text : String) (e : TextEdit) : Prop :=
  e.start ≤ e.stop ∧ e.stop ≤ text.utf8ByteSize ∧
    String.Pos.Raw.IsValid text ⟨e.start⟩ ∧ String.Pos.Raw.IsValid text ⟨e.stop⟩

/-- An edit that fits a text can be carried out on it. -/
theorem Fits.replaceable {text : List Char} {e : TextEdit} (h : Fits text e) :
    Replaceable (String.ofList text) e := by
  obtain ⟨hrange, hstart, hstop⟩ := h
  refine ⟨hrange, ?_, Text.isBoundary_iff_isValid.mp hstart, Text.isBoundary_iff_isValid.mp hstop⟩
  rw [Text.utf8ByteSize_ofList]
  exact Text.boundary_le hstop

/-- An edit that fits the text as it was fits it after those behind it, too: what they replace and
    what they put in is behind both of its ends. -/
theorem fits_run {text : List Char} {done rest : List TextEdit} {e : TextEdit}
    (hfit : ∀ d ∈ done ++ e :: rest, Fits text d)
    (hpair : (done ++ e :: rest).Pairwise fun later earlier => earlier.stop ≤ later.start) :
    Fits (run text done) e := by
  obtain ⟨hdone, -, hbehind⟩ := List.pairwise_append.mp hpair
  obtain ⟨hrange, hstart, hstop⟩ := hfit e (by simp)
  have hfit' : ∀ d ∈ done.reverse, Fits text d := by
    intro d hd
    exact hfit d (List.mem_append_left _ (List.mem_reverse.mp hd))
  -- Every edit that is done starts at or behind the end of this one, so the offsets up to there are
  -- in front of the first span.
  have horder : ∀ n, n ≤ e.stop →
      InOrder (Text.byteLength text) n (done.reverse.map replacement) := by
    intro n hn
    have hle := Text.boundary_le hstop
    refine inOrder_of_pairwise ?_ (List.pairwise_reverse.mpr hdone) ?_ (by omega)
    · intro d hd
      exact ⟨(hfit' d hd).1, Text.boundary_le (hfit' d hd).2.2⟩
    · intro d hd
      have hstop := hbehind d (List.mem_reverse.mp hd) e List.mem_cons_self
      omega
  have hkept := (run_reverse (fun d hd => (hfit' d hd).2) (horder 0 (Nat.zero_le _))).2
  rw [List.reverse_reverse] at hkept
  exact ⟨hrange, hkept e.start hstart (horder e.start hrange),
    hkept e.stop hstop (horder e.stop (Nat.le_refl _))⟩

/-! ## What is refused -/

/-- The edit ends behind the text, or one of its ends is inside a character. -/
def Misfits (text : String) (e : TextEdit) : Prop :=
  text.utf8ByteSize < e.stop ∨ Text.Inside e.start text.toList ∨ Text.Inside e.stop text.toList

/-- An edit that is not backward and does not fit ends behind the text or cuts a character. -/
theorem not_fits_iff {text : String} {e : TextEdit} (hrange : e.start ≤ e.stop) :
    ¬ Fits text.toList e ↔ Misfits text e := by
  have hsize : text.utf8ByteSize = Text.byteLength text.toList := by
    rw [← Text.utf8ByteSize_ofList, String.ofList_toList]
  unfold Fits Misfits
  rw [hsize, and_iff_right hrange, not_and_or, Bool.not_eq_true, Bool.not_eq_true,
    Text.isBoundary_eq_false_iff, Text.isBoundary_eq_false_iff]
  constructor
  -- If the start is behind the text, so is the end.
  · rintro ((hbehind | hinside) | (hbehind | hinside))
    · exact .inl (Nat.lt_of_lt_of_le hbehind hrange)
    · exact .inr (.inl hinside)
    · exact .inl hbehind
    · exact .inr (.inr hinside)
  · rintro (hbehind | hinside | hinside)
    · exact .inr (.inl hbehind)
    · exact .inl (.inr hinside)
    · exact .inr (.inr hinside)

/-- The checks of single edits refuse an edit that does not fit. -/
theorem exists_mem_of_checkAll {path : Path} {text : List Char} {es : List TextEdit}
    {err : EditError} (hrange : ∀ e ∈ es, e.start ≤ e.stop)
    (h : checkAll path text es = .error err) :
    ∃ e ∈ es, ¬ Fits text e ∧ err = .outOfBounds path e.span (Text.byteLength text) := by
  induction es with
  | nil => cases h
  | cons e es ih =>
    obtain ⟨hhead, htail⟩ := List.forall_mem_cons.mp hrange
    rw [checkAll] at h
    rcases Except.bind_eq_error.mp h with hfirst | ⟨_, -, hrest⟩
    · have hnot : ¬ Fits text e := by
        intro hfits
        rw [checkFit_ok_iff.mpr hfits] at hfirst
        cases hfirst
      refine ⟨e, List.mem_cons_self, hnot, ?_⟩
      -- A range that is not backward is refused for its ends only.
      rw [checkFit, if_neg (by omega)] at hfirst
      split at hfirst
      · cases hfirst
        rfl
      · cases hfirst
    · obtain ⟨e', he', hnot, herr⟩ := ih htail hrest
      exact ⟨e', List.mem_cons_of_mem _ he', hnot, herr⟩

/-- Of disjoint edits that are not backward, a splice refuses one that does not fit. -/
theorem apply_eq_error {path : Path} {text : String} {edits : List TextEdit} {err : EditError}
    (hrange : ∀ e ∈ edits, e.start ≤ e.stop) (hdisjoint : edits.Pairwise TextEdit.Disjoint)
    (h : apply path text edits = .error err) :
    ∃ e ∈ edits, Misfits text e ∧ err = .outOfBounds path e.span text.utf8ByteSize := by
  have hmem : ∀ {e}, e ∈ sortTailFirst edits ↔ e ∈ edits := (sortTailFirst_perm edits).mem_iff
  have hoverlap : WorkspaceEdit.checkDisjoint path (sortTailFirst edits) = .ok () :=
    (WorkspaceEdit.checkDisjoint_sortTailFirst_iff hrange).mpr hdisjoint
  -- There are no overlaps to refuse, so the error comes from the checks of single edits.
  have hall : checkAll path text.toList (sortTailFirst edits) = .error err := by
    cases hcheck : checkAll path text.toList (sortTailFirst edits) with
    | error err' =>
      rw [apply, applyChars, hcheck] at h
      cases h
      rfl
    | ok u =>
      rw [apply, applyChars, hcheck, hoverlap] at h
      cases h
  obtain ⟨e, he, hnot, rfl⟩ := exists_mem_of_checkAll (fun e he => hrange e (hmem.mp he)) hall
  refine ⟨e, hmem.mp he, (not_fits_iff (hrange e (hmem.mp he))).mp hnot, ?_⟩
  rw [← Text.utf8ByteSize_ofList, String.ofList_toList]

/-- A splice of such edits is refused exactly if one of them does not fit. -/
theorem exists_apply_eq_error_iff {path : Path} {text : String} {edits : List TextEdit}
    (hrange : ∀ e ∈ edits, e.start ≤ e.stop) (hdisjoint : edits.Pairwise TextEdit.Disjoint) :
    (∃ err, apply path text edits = .error err) ↔ ∃ e ∈ edits, Misfits text e := by
  constructor
  · rintro ⟨err, h⟩
    obtain ⟨e, he, hmisfit, -⟩ := apply_eq_error hrange hdisjoint h
    exact ⟨e, he, hmisfit⟩
  · rintro ⟨e, he, hmisfit⟩
    cases h : apply path text edits with
    | error err => exact ⟨err, rfl⟩
    | ok out =>
      exact absurd ((apply_eq_ok_iff.mp h).1 e he) ((not_fits_iff (hrange e he)).mpr hmisfit)

/-- The edits of a group of a valid workspace edit are not backward, and pairwise disjoint. -/
theorem disjoint_of_mem_groups {w : WorkspaceEdit} (h : w.validate = .ok ())
    {group : Path × List TextEdit} (hgroup : group ∈ w.groups) :
    (∀ e ∈ group.2, e.start ≤ e.stop) ∧ group.2.Pairwise TextEdit.Disjoint := by
  obtain ⟨-, hrange, hpair⟩ := WorkspaceEdit.validate_eq_ok_iff.mp h
  obtain ⟨p, hp, rfl⟩ := List.mem_map.mp hgroup
  have hperm := sortTailFirst_perm (w.editsFor p)
  constructor
  · intro e he
    exact hrange e (WorkspaceEdit.mem_of_mem_editsFor (hperm.mem_iff.mp he))
  · rw [hperm.pairwise_iff TextEdit.Disjoint.symm]
    exact WorkspaceEdit.pairwise_editsFor_iff.mpr hpair p hp

/-- Where a splice passes its checks, each edit finds a text in which its span can be replaced,
    and not only the text as it was. And a splice of the edits that a valid workspace edit makes to
    one file, into whatever text, is refused exactly if one of them ends behind the text or has an
    end inside a character; the refusal names such an edit. -/
theorem apply_between_characters :
    (∀ (path : Path) (text : String) (edits : List TextEdit),
      checkAll path text.toList (sortTailFirst edits) = .ok () →
      WorkspaceEdit.checkDisjoint path (sortTailFirst edits) = .ok () →
      ∀ done e rest, sortTailFirst edits = done ++ e :: rest →
        Replaceable (String.ofList (run text.toList done)) e) ∧
    ∀ w : WorkspaceEdit, w.validate = .ok () → ∀ group ∈ w.groups, ∀ (path : Path) (text : String),
      (∀ err, apply path text group.2 = .error err →
        ∃ e ∈ group.2, Misfits text e ∧ err = .outOfBounds path e.span text.utf8ByteSize) ∧
      ((∃ err, apply path text group.2 = .error err) ↔ ∃ e ∈ group.2, Misfits text e) := by
  constructor
  -- The checks on the text as it was make every edit fit, and leave each behind the ones to come.
  · intro path text edits hall hoverlap done e rest hsorted
    have hfit := checkAll_eq_ok_iff.mp hall
    have hpair := checkDisjoint_pairwise (fun d hd => (hfit d hd).1) hoverlap
    rw [hsorted] at hfit hpair
    exact (fits_run hfit hpair).replaceable
  · intro w hvalid group hgroup path text
    obtain ⟨hrange, hdisjoint⟩ := disjoint_of_mem_groups hvalid hgroup
    exact ⟨fun err h => apply_eq_error hrange hdisjoint h,
      exists_apply_eq_error_iff hrange hdisjoint⟩

/-- Two edits behind a character of two bytes, the later one in front. -/
def accented : List TextEdit :=
  [⟨⟨"a.gml"⟩, 8, 10, "λλ"⟩, ⟨⟨"a.gml"⟩, 3, 5, "ü"⟩]

/-- A later edit that changes the length of the text does not disturb an earlier one, and an edit
    that cuts a character is refused. -/
theorem apply_between_characters_accented :
    Replaceable (String.ofList (run "é hp = hp;".toList [⟨⟨"a.gml"⟩, 8, 10, "λλ"⟩]))
      ⟨⟨"a.gml"⟩, 3, 5, "ü"⟩ ∧
    ∃ group ∈ WorkspaceEdit.groups ⟨accented⟩, ∃ err,
      apply group.1 "abcdé hp;" group.2 = .error err := by
  have hsorted : sortTailFirst accented =
      [⟨⟨"a.gml"⟩, 8, 10, "λλ"⟩] ++ ⟨⟨"a.gml"⟩, 3, 5, "ü"⟩ :: [] :=
    List.mergeSort_of_pairwise (by decide)
  have hvalid : WorkspaceEdit.validate ⟨accented⟩ = .ok () :=
    WorkspaceEdit.validate_eq_ok_iff.mpr
      ⟨by decide, by decide, by simp [accented, TextEdit.Disjoint]⟩
  obtain ⟨hsteps, hgroups⟩ := apply_between_characters
  constructor
  · refine hsteps ⟨"a.gml"⟩ "é hp = hp;" accented ?_ ?_ _ _ _ hsorted
    · rw [hsorted]
      exact checkAll_eq_ok_iff.mpr (by decide)
    · rw [hsorted]
      rfl
  · obtain ⟨q, hq, hsame⟩ := WorkspaceEdit.exists_groupKey (w := ⟨accented⟩) List.mem_cons_self
    have hgroup : (q, sortTailFirst (WorkspaceEdit.editsFor ⟨accented⟩ q)) ∈
        WorkspaceEdit.groups ⟨accented⟩ := List.mem_map_of_mem hq
    have hmem : ⟨⟨"a.gml"⟩, 3, 5, "ü"⟩ ∈ WorkspaceEdit.editsFor ⟨accented⟩ q := by
      rw [Path.same_comm] at hsame
      exact List.mem_filter.mpr ⟨by decide, hsame⟩
    -- The edit ends inside the letter `é` of this text.
    have hmisfit : Misfits "abcdé hp;" ⟨⟨"a.gml"⟩, 3, 5, "ü"⟩ :=
      .inr (.inr ⟨"abcd".toList, 'é', " hp;".toList, by decide⟩)
    exact ⟨_, hgroup, (hgroups _ hvalid _ hgroup q _).2.mpr
      ⟨_, (sortTailFirst_perm _).mem_iff.mpr hmem, hmisfit⟩⟩

end Splice
end HotRename
