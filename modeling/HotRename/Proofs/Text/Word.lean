import HotRename.Proofs.Text.Bytes
import HotRename.Text.Search

/-!
# Whole words of a text

`IsWordAt` says where a name stands as a whole word, and `wordOffsets` lists all these places. The
search for a word gives the first of them. Where a text is cut between two words, no word of either
part is lost and none comes up anew. Main statements:

* `mem_wordOffsets`       the places where a name stands as a whole word
* `findWord_eq_none_iff`  the search fails only where there is none
* `isWordAt_append`       the words of a text that is put together from two
* `isWordAt_middle`       those of a text around one word
-/

namespace HotRename.Text

variable {words : WordClass} {name text : List Char} {n : Nat}

/-- The name stands at the offset, with a word boundary on either side. -/
def IsWordAt (words : WordClass) (name text : List Char) (n : Nat) : Prop :=
  ∃ before after, text = before ++ name ++ after ∧ byteLength before = n ∧
    isWordBoundary words before.getLast? (name ++ after).head? = true ∧
    isWordBoundary words (before ++ name).getLast? after.head? = true

/-- A word ends inside the text. -/
theorem IsWordAt.le (h : IsWordAt words name text n) :
    n + byteLength name ≤ byteLength text := by
  obtain ⟨before, after, rfl, rfl, -, -⟩ := h
  rw [byteLength_append, byteLength_append]
  omega

/-! ## The search for a word -/

/-- The test at an offset, in front of which other characters may stand. -/
theorem wordAtHead_iff {before rest : List Char} :
    wordAtHead words name before.getLast? rest = true ↔
      ∃ after, rest = name ++ after ∧
        isWordBoundary words before.getLast? (name ++ after).head? = true ∧
        isWordBoundary words (before ++ name).getLast? after.head? = true := by
  rw [wordAtHead, Bool.and_eq_true, Bool.and_eq_true, List.isPrefixOf_iff_prefix,
    ← List.getLast?_append]
  constructor
  · rintro ⟨⟨⟨after, rfl⟩, hleft⟩, hright⟩
    rw [List.drop_left] at hright
    exact ⟨after, rfl, hleft, hright⟩
  · rintro ⟨after, rfl, hleft, hright⟩
    rw [List.drop_left]
    exact ⟨⟨⟨after, rfl⟩, hleft⟩, hright⟩

/-- The offsets at which the name stands as a whole word, counting from `offset`. `before` is the
    character in front of the text, if there is one. -/
def wordOffsetsFrom (words : WordClass) (name : List Char) (before : Option Char) (offset : Nat) :
    List Char → List Nat
  | [] => if wordAtHead words name before [] then [offset] else []
  | c :: cs =>
    let rest := wordOffsetsFrom words name (some c) (offset + c.utf8Size) cs
    if wordAtHead words name before (c :: cs) then offset :: rest else rest

/-- The offsets at which the name stands in the text as a whole word, in ascending order. -/
def wordOffsets (words : WordClass) (name text : List Char) : List Nat :=
  wordOffsetsFrom words name none 0 text

/-- The search gives the first of the offsets. -/
theorem findWordFrom_eq_head? (before : Option Char) (offset : Nat) :
    findWordFrom words name before offset text =
      (wordOffsetsFrom words name before offset text).head? := by
  induction text generalizing before offset with
  | nil =>
    rw [findWordFrom, wordOffsetsFrom]
    split <;> rfl
  | cons c cs ih =>
    rw [findWordFrom, wordOffsetsFrom]
    split
    · rfl
    · exact ih _ _

/-- The offsets are those where the test succeeds. -/
theorem mem_wordOffsetsFrom {front : List Char} :
    n ∈ wordOffsetsFrom words name front.getLast? (byteLength front) text ↔
      ∃ before rest, text = before ++ rest ∧ byteLength (front ++ before) = n ∧
        wordAtHead words name (front ++ before).getLast? rest = true := by
  induction text generalizing front with
  | nil =>
    simp only [wordOffsetsFrom, List.nil_eq_append_iff]
    constructor
    · intro h
      split at h
      · rename_i hword
        exact ⟨[], [], ⟨rfl, rfl⟩, by simp_all⟩
      · exact nomatch h
    · rintro ⟨_, _, ⟨rfl, rfl⟩, rfl, hword⟩
      rw [List.append_nil] at hword
      simp [hword]
  | cons c cs ih =>
    have hlast : (front ++ [c]).getLast? = some c := List.getLast?_concat
    have hbytes : byteLength (front ++ [c]) = byteLength front + c.utf8Size := by
      simp [byteLength]
    have ih := @ih (front ++ [c])
    rw [hlast, hbytes] at ih
    have hcons : n ∈ wordOffsetsFrom words name front.getLast? (byteLength front) (c :: cs) ↔
        (n = byteLength front ∧ wordAtHead words name front.getLast? (c :: cs) = true) ∨
          n ∈ wordOffsetsFrom words name (some c) (byteLength front + c.utf8Size) cs := by
      rw [wordOffsetsFrom]
      split <;> simp_all
    rw [hcons, ih]
    -- The text in front of a match is empty, or starts with the first character.
    constructor
    · rintro (⟨rfl, hword⟩ | ⟨before, rest, rfl, rfl, hword⟩)
      · exact ⟨[], c :: cs, rfl, by simp, by simpa using hword⟩
      · exact ⟨c :: before, rest, rfl, by simp, by simpa using hword⟩
    · rintro ⟨before, rest, hsplit, rfl, hword⟩
      cases before with
      | nil =>
        rw [List.append_nil] at hword
        rw [List.nil_append] at hsplit
        exact .inl ⟨by simp, hsplit ▸ hword⟩
      | cons d before =>
        rw [List.cons_append, List.cons.injEq] at hsplit
        obtain ⟨rfl, rfl⟩ := hsplit
        exact .inr ⟨before, rest, rfl, by simp, by simpa using hword⟩

/-- The listed offsets are those of the whole words. -/
theorem mem_wordOffsets : n ∈ wordOffsets words name text ↔ IsWordAt words name text n := by
  have hmem := @mem_wordOffsetsFrom words name text n []
  simp only [List.nil_append] at hmem
  refine hmem.trans ?_
  simp only [wordAtHead_iff]
  constructor
  · rintro ⟨before, _, rfl, hbytes, after, rfl, hleft, hright⟩
    exact ⟨before, after, by simp, hbytes, hleft, hright⟩
  · rintro ⟨before, after, rfl, hbytes, hleft, hright⟩
    exact ⟨before, name ++ after, by simp, hbytes, after, rfl, hleft, hright⟩

instance : Decidable (IsWordAt words name text n) :=
  decidable_of_iff _ mem_wordOffsets

example : wordOffsets .unicode "hp".toList "hp.hp_x.hp".toList = [0, 8] := by decide

/-- The search fails only where the name nowhere stands as a whole word. -/
theorem findWord_eq_none_iff :
    findWord words name text = none ↔ ∀ n, ¬ IsWordAt words name text n := by
  rw [findWord, findWordFrom_eq_head?, List.head?_eq_none_iff, List.eq_nil_iff_forall_not_mem]
  exact forall_congr' fun n => not_congr mem_wordOffsets

/-- The search for a word succeeds exactly if the word is there. -/
theorem hasWord_iff : hasWord words name text = true ↔ ∃ n, IsWordAt words name text n := by
  rw [hasWord, Option.isSome_iff_ne_none, ne_eq, findWord_eq_none_iff, Classical.not_forall_not]

/-! ## Words -/

/-- The characters are a word: there is one, and all of them are word characters. -/
structure Word (words : WordClass) (cs : List Char) : Prop where
  ne_nil : cs ≠ []
  chars : ∀ c ∈ cs, words.isWord c = true

/-- The text starts with a word character. -/
def startsInWord (words : WordClass) (cs : List Char) : Bool :=
  cs.head?.any words.isWord

/-- The text ends with a word character. -/
def endsInWord (words : WordClass) (cs : List Char) : Bool :=
  cs.getLast?.any words.isWord

/-- The empty text does not start with a word character. -/
@[simp] theorem startsInWord_nil : startsInWord words [] = false := rfl

/-- Nor does it end with one. -/
@[simp] theorem endsInWord_nil : endsInWord words [] = false := rfl

/-- A text starts as its first part does. -/
theorem startsInWord_append {u : List Char} (hu : u ≠ []) (v : List Char) :
    startsInWord words (u ++ v) = startsInWord words u := by
  cases u with
  | nil => exact absurd rfl hu
  | cons c cs => rfl

/-- A text ends as its last part does. -/
theorem endsInWord_append (u : List Char) {v : List Char} (hv : v ≠ []) :
    endsInWord words (u ++ v) = endsInWord words v := by
  rw [endsInWord, endsInWord, List.getLast?_append, List.getLast?_eq_some_getLast hv,
    Option.some_or]

/-- A word starts with a word character. -/
theorem Word.startsInWord {w : List Char} (hw : Word words w) : startsInWord words w = true := by
  cases w with
  | nil => exact absurd rfl hw.ne_nil
  | cons c cs => exact hw.chars c List.mem_cons_self

/-- A word ends with one. -/
theorem Word.endsInWord {w : List Char} (hw : Word words w) : endsInWord words w = true := by
  rw [Text.endsInWord, List.getLast?_eq_some_getLast hw.ne_nil]
  exact hw.chars _ (List.getLast_mem hw.ne_nil)

/-- The parts of a word are words, or empty. -/
theorem Word.cut {u v : List Char} (h : Word words (u ++ v)) :
    u = [] ∨ v = [] ∨ Word words u ∧ Word words v := by
  by_cases hu : u = []
  · exact .inl hu
  · by_cases hv : v = []
    · exact .inr (.inl hv)
    · exact .inr (.inr ⟨⟨hu, fun c hc => h.chars c (List.mem_append_left _ hc)⟩,
        ⟨hv, fun c hc => h.chars c (List.mem_append_right _ hc)⟩⟩)

/-- A word stands as a whole word where no word character is next to it. -/
theorem isWordAt_iff (hname : Word words name) :
    IsWordAt words name text n ↔
      ∃ before after, text = before ++ name ++ after ∧ byteLength before = n ∧
        endsInWord words before = false ∧ startsInWord words after = false := by
  -- Next to a word character, a boundary is where there is no other.
  have hleft (before after : List Char) :
      isWordBoundary words before.getLast? (name ++ after).head? = !endsInWord words before := by
    show (endsInWord words before != startsInWord words (name ++ after)) = _
    rw [startsInWord_append hname.ne_nil, hname.startsInWord, Bool.bne_true]
  have hright (before after : List Char) :
      isWordBoundary words (before ++ name).getLast? after.head? = !startsInWord words after := by
    show (endsInWord words (before ++ name) != startsInWord words after) = _
    rw [endsInWord_append _ hname.ne_nil, hname.endsInWord, Bool.true_bne]
  simp only [IsWordAt, hleft, hright, Bool.not_eq_true']

/-- Inside a word there is no other whole word. -/
theorem IsWordAt.eq_of_word {w : List Char} (h : IsWordAt words name w n) (hname : Word words name)
    (hw : Word words w) : w = name ∧ n = 0 := by
  obtain ⟨before, after, rfl, rfl, hbefore, hafter⟩ := (isWordAt_iff hname).mp h
  -- What stands behind the word in the word would start with a word character.
  have hafter : after = [] := by
    rcases hw.cut with hnil | hnil | ⟨-, hword⟩
    · exact absurd (List.append_eq_nil_iff.mp hnil).2 hname.ne_nil
    · exact hnil
    · rw [hword.startsInWord] at hafter
      exact absurd hafter (by decide)
  subst hafter
  rw [List.append_nil] at hw
  have hbefore : before = [] := by
    rcases hw.cut with hnil | hnil | ⟨hword, -⟩
    · exact hnil
    · exact absurd hnil hname.ne_nil
    · rw [hword.endsInWord] at hbefore
      exact absurd hbefore (by decide)
  subst hbefore
  simp [byteLength]

/-- Where a text is not cut inside a word, its words are those of the two parts. -/
theorem isWordAt_append (hname : Word words name) {u v : List Char}
    (hcut : endsInWord words u = false ∨ startsInWord words v = false) :
    IsWordAt words name (u ++ v) n ↔
      IsWordAt words name u n ∨ ∃ m, n = byteLength u + m ∧ IsWordAt words name v m := by
  simp only [isWordAt_iff hname]
  constructor
  · rintro ⟨before, after, hsplit, rfl, hbefore, hafter⟩
    rw [List.append_assoc, List.append_eq_append_iff] at hsplit
    rcases hsplit with ⟨mid, rfl, rfl⟩ | ⟨mid, rfl, hsplit⟩
    · -- The match lies behind the cut.
      refine .inr ⟨byteLength mid, by simp, mid, after, by simp, rfl, ?_, hafter⟩
      cases mid with
      | nil => rfl
      | cons c cs => rwa [endsInWord_append _ (List.cons_ne_nil c cs)] at hbefore
    · rw [List.append_eq_append_iff] at hsplit
      rcases hsplit with ⟨mid', rfl, rfl⟩ | ⟨mid', rfl, rfl⟩
      · -- It lies in front of the cut.
        refine .inl ⟨before, mid', by simp, rfl, hbefore, ?_⟩
        cases mid' with
        | nil => rfl
        | cons c cs => exact hafter
      · -- It reaches up to the cut from one side, since it cannot lie on both.
        rcases hname.cut with rfl | rfl | ⟨hleft, hright⟩
        · exact .inr ⟨0, by simp, [], after, by simp, rfl, rfl, hafter⟩
        · exact .inl ⟨before, [], by simp, rfl, hbefore, rfl⟩
        · rw [endsInWord_append _ hleft.ne_nil, hleft.endsInWord,
            startsInWord_append hright.ne_nil, hright.startsInWord] at hcut
          exact absurd hcut (by decide)
  -- Conversely, the cut does not come to lie next to a word character of the match.
  · rintro (⟨before, after, rfl, rfl, hbefore, hafter⟩ |
      ⟨m, rfl, before, after, rfl, rfl, hbefore, hafter⟩)
    · refine ⟨before, after ++ v, by simp, rfl, hbefore, ?_⟩
      cases after with
      | nil =>
        rw [List.append_nil, endsInWord_append _ hname.ne_nil, hname.endsInWord] at hcut
        simpa using hcut
      | cons c cs => exact hafter
    · refine ⟨u ++ before, after, by simp, by simp, ?_, hafter⟩
      cases before with
      | nil =>
        rw [List.nil_append, startsInWord_append hname.ne_nil, hname.startsInWord] at hcut
        simpa using hcut
      | cons c cs => rwa [endsInWord_append _ (List.cons_ne_nil c cs)]

/-- The words of a text around one word are this word and those of the texts on either side. -/
theorem isWordAt_middle (hname : Word words name) {w x y : List Char} (hw : Word words w)
    (hx : endsInWord words x = false) (hy : startsInWord words y = false) :
    IsWordAt words name (x ++ w ++ y) n ↔
      IsWordAt words name x n ∨ (w = name ∧ n = byteLength x) ∨
        ∃ m, n = byteLength x + byteLength w + m ∧ IsWordAt words name y m := by
  -- In the word itself there is the word or nothing.
  have hself (m : Nat) : IsWordAt words name w m ↔ w = name ∧ m = 0 := by
    refine ⟨fun h => h.eq_of_word hname hw, ?_⟩
    rintro ⟨rfl, rfl⟩
    exact (isWordAt_iff hname).mpr ⟨[], [], by simp, rfl, rfl, rfl⟩
  rw [List.append_assoc, isWordAt_append hname (.inl hx)]
  simp only [isWordAt_append hname (.inr hy), hself]
  constructor
  · rintro (h | ⟨_, rfl, ⟨rfl, rfl⟩ | ⟨m, rfl, h⟩⟩)
    · exact .inl h
    · exact .inr (.inl ⟨rfl, rfl⟩)
    · exact .inr (.inr ⟨m, by omega, h⟩)
  · rintro (h | ⟨rfl, rfl⟩ | ⟨m, rfl, h⟩)
    · exact .inl h
    · exact .inr ⟨0, rfl, .inl ⟨rfl, rfl⟩⟩
    · exact .inr ⟨byteLength w + m, by omega, .inr ⟨m, rfl, h⟩⟩

end HotRename.Text
