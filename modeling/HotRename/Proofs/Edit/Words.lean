import HotRename.Proofs.Edit.Disjoint
import HotRename.Proofs.Text.Comment

/-!
# Edits that replace words

An edit that puts one word in the place of another changes neither what is a comment nor any other
word. So when words outside comments are replaced one after the other, from tail to head, the words
of the new text are those that were not replaced and those that were put in. Main statements:

* `exists_word_step`  which words there are after one edit
* `exists_word_run`   which words there are after all of them
* `apply_words`       the same for the edits of a file, in whatever order they are given
-/

namespace HotRename

open Text

variable {words : WordClass}

/-- The edit replaces a word that stands outside comments by a word. -/
def TextEdit.RenamesWord (words : WordClass) (text : List Char) (e : TextEdit) : Prop :=
  Word words e.newText.toList ∧ ∃ old, Word words old ∧ e.stop = e.start + byteLength old ∧
    IsWordAt words old (maskComments text) e.start

/-- A word is not empty, so the span of the edit is not. -/
theorem TextEdit.RenamesWord.start_lt_stop {text : List Char} {e : TextEdit}
    (h : e.RenamesWord words text) : e.start < e.stop := by
  obtain ⟨-, old, hold, hstop, -⟩ := h
  have hpos := byteLength_pos hold.ne_nil
  omega

/-- Disjoint edits of which none is empty are carried out from tail to head. -/
theorem TextEdit.sortTailFirst_descending {edits : List TextEdit}
    (hspan : ∀ e ∈ edits, e.start < e.stop) (hdisjoint : edits.Pairwise Disjoint) :
    (sortTailFirst edits).Pairwise fun later earlier => earlier.start < later.start := by
  have hperm := sortTailFirst_perm edits
  have hboth := ((hperm.symm.pairwise hdisjoint Disjoint.symm).and (sortTailFirst_pairwise edits))
  refine hboth.imp_of_mem ?_
  intro later earlier hlater hearlier h
  have hlater := hspan later (hperm.mem_iff.mp hlater)
  have hearlier := hspan earlier (hperm.mem_iff.mp hearlier)
  have hle := h.1.stop_le (by omega) h.2
  omega

/-- A word outside comments is a word of the text. -/
theorem Text.isWordAt_of_mask {w text : List Char} {n : Nat} (hw : Word words w)
    (h : IsWordAt words w (maskComments text) n) : IsWordAt words w text n := by
  -- The mask leaves words outside comments as they are.
  obtain ⟨x, y, hmask, rfl, hx, hy⟩ := (isWordAt_iff hw).mp h
  obtain ⟨a, b, rfl, hbytes, ha, hb, -⟩ := exists_source_of_mask hw hmask hx hy
  exact (isWordAt_iff hw).mpr ⟨a, b, rfl, hbytes, ha, hb⟩

namespace Splice

variable {text w : List Char} {e : TextEdit}

/-- What the edit of a word does to the mask of the text. -/
theorem step_word (he : e.RenamesWord words text) :
    ∃ x old y, Word words old ∧ maskComments text = x ++ old ++ y ∧ byteLength x = e.start ∧
      endsInWord words x = false ∧ startsInWord words y = false ∧
      maskComments (step text e) = x ++ e.newText.toList ++ y := by
  obtain ⟨hnew, old, hold, hstop, hword⟩ := he
  obtain ⟨x, y, hmask, hstart, hx, hy⟩ := (isWordAt_iff hold).mp hword
  obtain ⟨a, b, rfl, hbytes, ha, hb, hmask'⟩ := exists_source_of_mask hold hmask hx hy
  -- The edit replaces the word in the source of the mask.
  have hstep : step (a ++ old ++ b) e = a ++ e.newText.toList ++ b := by
    rw [step, hstop, ← hstart, ← hbytes, replaceBytes_middle]
  rw [hstep]
  exact ⟨x, old, y, hold, hmask, hstart, hx, hy, hmask' _ hnew⟩

/-- The words in front of an edit stay where they are. -/
theorem isWordAt_step_of_lt (he : e.RenamesWord words text) (hw : Word words w) {n : Nat}
    (hn : n < e.start) :
    IsWordAt words w (maskComments (step text e)) n ↔ IsWordAt words w (maskComments text) n := by
  obtain ⟨x, old, y, hold, hmask, hstart, hx, hy, hmask'⟩ := step_word he
  rw [hmask', hmask, isWordAt_middle hw he.1 hx hy, isWordAt_middle hw hold hx hy]
  -- What stands at the edit or behind it is not at an offset in front of it.
  constructor
  · rintro (h | ⟨-, rfl⟩ | ⟨m, rfl, -⟩)
    · exact .inl h
    · omega
    · omega
  · rintro (h | ⟨-, rfl⟩ | ⟨m, rfl, -⟩)
    · exact .inl h
    · omega
    · omega

/-- The words after an edit are those that it does not replace, and the one that it puts in.
    Offsets in front of the edit may be left out of account. -/
theorem exists_word_step (he : e.RenamesWord words text) (hw : Word words w) (ignored : Nat → Prop)
    (hignored : ∀ n, ignored n → n < e.start) :
    (∃ n, IsWordAt words w (maskComments (step text e)) n ∧ ¬ ignored n) ↔
      (∃ n, IsWordAt words w (maskComments text) n ∧ n ≠ e.start ∧ ¬ ignored n) ∨
        e.newText.toList = w := by
  obtain ⟨x, old, y, hold, hmask, hstart, hx, hy, hmask'⟩ := step_word he
  have hold' := byteLength_pos hold.ne_nil
  have hw' := byteLength_pos hw.ne_nil
  -- Words behind the edit move, but not to where something is left out of account.
  have hbehind : ∀ n, e.start ≤ n → ¬ ignored n := by
    intro n hn hig
    have hlt := hignored n hig
    omega
  simp only [hmask', hmask, isWordAt_middle hw he.1 hx hy, isWordAt_middle hw hold hx hy]
  constructor
  · rintro ⟨n, hfront | ⟨hnew, -⟩ | ⟨m, -, hm⟩, hn⟩
    · have hle := hfront.le
      exact .inl ⟨n, .inl hfront, by omega, hn⟩
    · exact .inr hnew
    · exact .inl ⟨_, .inr (.inr ⟨m, rfl, hm⟩), by omega, hbehind _ (by omega)⟩
  · rintro (⟨n, hfront | ⟨-, rfl⟩ | ⟨m, -, hm⟩, hne, hn⟩ | hnew)
    · exact ⟨n, .inl hfront, hn⟩
    · exact absurd hstart hne
    · exact ⟨_, .inr (.inr ⟨m, rfl, hm⟩), hbehind _ (by omega)⟩
    · exact ⟨_, .inr (.inl ⟨hnew, rfl⟩), hbehind _ (by omega)⟩

/-- The words outside comments after edits from tail to head are those that none of them replaces,
    and those that they put in. -/
theorem exists_word_run (hw : Word words w) {edits : List TextEdit}
    (hedits : ∀ e ∈ edits, e.RenamesWord words text)
    (horder : edits.Pairwise fun later earlier => earlier.start < later.start) :
    (∃ n, IsWordAt words w (maskComments (run text edits)) n) ↔
      (∃ n, IsWordAt words w (maskComments text) n ∧ ∀ e ∈ edits, e.start ≠ n) ∨
        ∃ e ∈ edits, e.newText.toList = w := by
  induction edits generalizing text with
  | nil => simp [run]
  | cons e edits ih =>
    obtain ⟨hbefore, horder⟩ := List.pairwise_cons.mp horder
    have he := hedits e List.mem_cons_self
    -- The other edits are to words in front of the first, which it leaves where they are.
    have hrest : ∀ e' ∈ edits, e'.RenamesWord words (step text e) := by
      intro e' he'
      obtain ⟨hnew, old, hold, hstop, hword⟩ := hedits e' (List.mem_cons_of_mem _ he')
      exact ⟨hnew, old, hold, hstop, (isWordAt_step_of_lt he hold (hbefore e' he')).mpr hword⟩
    have hstep := exists_word_step he hw (fun n => ∃ e' ∈ edits, e'.start = n) (by
      rintro n ⟨e', he', rfl⟩
      exact hbefore e' he')
    rw [show run text (e :: edits) = run (step text e) edits from rfl, ih hrest horder]
    simp only [not_exists, not_and] at hstep
    rw [hstep]
    simp only [List.mem_cons, forall_eq_or_imp, exists_eq_or_imp, ne_comm, or_assoc]

/-- The words outside comments after the edits of a file, each of which replaces such a word. -/
theorem apply_words {path : Path} {text out : String} {edits : List TextEdit} (hw : Word words w)
    (hedits : ∀ e ∈ edits, e.RenamesWord words text.toList) (h : apply path text edits = .ok out) :
    (∃ n, IsWordAt words w (maskComments out.toList) n) ↔
      (∃ n, IsWordAt words w (maskComments text.toList) n ∧ ∀ e ∈ edits, e.start ≠ n) ∨
        ∃ e ∈ edits, e.newText.toList = w := by
  obtain ⟨-, hdisjoint, rfl⟩ := apply_eq_ok_iff.mp h
  have hmem : ∀ e, e ∈ TextEdit.sortTailFirst edits ↔ e ∈ edits := fun e =>
    (TextEdit.sortTailFirst_perm edits).mem_iff
  -- None of the spans is empty, so the sorted edits start one before the other.
  have horder := TextEdit.sortTailFirst_descending
    (fun e he => (hedits e he).start_lt_stop) hdisjoint
  have hrun := exists_word_run hw (fun e he => hedits e ((hmem e).mp he)) horder
  simp only [hmem] at hrun
  rw [String.toList_ofList]
  exact hrun

/-- A word that is replaced wherever it stands outside comments is found there afterwards exactly
    if an edit has put it there. -/
theorem apply_word_replaced {path : Path} {text out : String} {edits : List TextEdit}
    (hw : Word words w) (hedits : ∀ e ∈ edits, e.RenamesWord words text.toList)
    (hall : ∀ n, IsWordAt words w (maskComments text.toList) n → ∃ e ∈ edits, e.start = n)
    (h : apply path text edits = .ok out) :
    (∃ n, IsWordAt words w (maskComments out.toList) n) ↔ ∃ e ∈ edits, e.newText.toList = w := by
  rw [apply_words hw hedits h, or_iff_right]
  rintro ⟨n, hword, hkept⟩
  obtain ⟨e, he, hstart⟩ := hall n hword
  exact hkept e he hstart

/-- The word that an edit puts into a file is found there. -/
theorem exists_word_of_edit {path : Path} {text out : String} {edits : List TextEdit}
    (hedits : ∀ e ∈ edits, e.RenamesWord words text.toList)
    (hput : ∃ e ∈ edits, e.newText.toList = w) (h : apply path text edits = .ok out) :
    ∃ n, IsWordAt words w out.toList n := by
  have hw : Word words w := by
    obtain ⟨e, he, rfl⟩ := hput
    exact (hedits e he).1
  obtain ⟨n, hn⟩ := (apply_words hw hedits h).mpr (.inr hput)
  exact ⟨n, isWordAt_of_mask hw hn⟩

end Splice
end HotRename
