import HotRename.Proofs.Text.Word
import HotRename.Text.Search

/-!
# Words outside comments

Masking goes through a text character by character, and what becomes of a character depends on what
came before it. A word does not change this: its characters open, close and escape nothing. So where
a word is left standing by the mask, any other word in its place is left standing, too, and the mask
of the text around it stays the same. Main statements:

* `maskFrom_append`        a text is masked part by part, if the second one starts with a word
* `masked_maskFrom`        every character is kept, or is blanked out
* `exists_source_of_mask`  a word in the mask, and other words in its place
-/

namespace HotRename.Text

variable {words : WordClass}

/-! ## Plain characters -/

/-- The character opens, closes and escapes nothing. -/
def isPlain (c : Char) : Bool :=
  c ≠ '/' && c ≠ '*' && c ≠ '"' && c ≠ '\'' && c ≠ '\\' && c ≠ '\n'

/-- Word characters are plain. -/
theorem isPlain_of_isWord {c : Char} (h : words.isWord c = true) : isPlain c = true := by
  have hne (d : Char) (hd : d ∈ delimiters) : c ≠ d := by
    rintro rfl
    rw [words.not_isWord_of_delimiter c hd] at h
    exact absurd h (by decide)
  simp [isPlain, hne '/' (by decide), hne '*' (by decide), hne '"' (by decide),
    hne '\'' (by decide), hne '\\' (by decide), hne '\n' (by decide)]

/-- The text is empty or starts with a plain character. -/
def startsPlain (cs : List Char) : Bool :=
  cs.head?.all isPlain

/-- A text that starts with a word starts plain. -/
theorem Word.startsPlain {w : List Char} (hw : Word words w) (cs : List Char) :
    startsPlain (w ++ cs) = true := by
  cases w with
  | nil => exact absurd rfl hw.ne_nil
  | cons c cs => exact isPlain_of_isWord (hw.chars c List.mem_cons_self)

namespace Region

/-- A region that reading a text leads to: literals are opened by quotes. -/
def Valid : Region → Prop
  | .literal quote => quote = '"' ∨ quote = '\''
  | _ => True

/-- The region is a comment. -/
def isComment : Region → Bool
  | .lineComment | .blockComment => true
  | .code | .literal _ => false

/-- What becomes of a character of the region. -/
def maskChar (r : Region) (c : Char) : List Char :=
  if r.isComment then blankOut c else [c]

end Region

/-- A plain character does not change the region. -/
theorem maskFrom_plain {r : Region} (hr : r.Valid) {c : Char} (hc : isPlain c = true)
    (cs : List Char) : maskFrom r (c :: cs) = r.maskChar c ++ maskFrom r cs := by
  simp only [isPlain, Bool.and_eq_true, decide_eq_true_eq, ne_eq] at hc
  obtain ⟨⟨⟨⟨⟨hslash, hstar⟩, hdouble⟩, hsingle⟩, hescape⟩, hline⟩ := hc
  cases r with
  | code => simp [maskFrom, hslash, hdouble, hsingle, Region.maskChar, Region.isComment]
  | lineComment => simp [maskFrom, hline, Region.maskChar, Region.isComment]
  | blockComment => simp [maskFrom, hstar, Region.maskChar, Region.isComment]
  | literal quote =>
    -- A literal is closed by the kind of quote that opened it.
    have hquote : c ≠ quote := by
      rcases hr with rfl | rfl
      · exact hdouble
      · exact hsingle
    simp [maskFrom, hescape, hline, hquote, Region.maskChar, Region.isComment]

/-- A text does not come to start with a character that is not plain when a text that starts plain
    is put behind it. -/
theorem append_ne_cons {cs t : List Char} {d : Char} (hd : isPlain d = false)
    (ht : startsPlain t = true) (hcs : ∀ cs', cs ≠ d :: cs') (rest : List Char) :
    cs ++ t ≠ d :: rest := by
  intro h
  cases cs with
  -- Then the second text is the one that starts so.
  | nil =>
    rw [List.nil_append] at h
    subst h
    exact absurd ht (by simp [startsPlain, hd])
  | cons c cs =>
    rw [List.cons_append, List.cons.injEq] at h
    exact hcs cs (by rw [h.1])

/-- A text is masked part by part, if the second part starts with a plain character: then no two
    characters that belong together are cut apart, but for a backslash and the character that it
    escapes, which is kept either way. -/
theorem maskFrom_append {r : Region} (hr : r.Valid) (a : List Char) :
    ∃ r' : Region, r'.Valid ∧ ∀ t, startsPlain t = true →
      maskFrom r (a ++ t) = maskFrom r a ++ maskFrom r' t := by
  fun_induction maskFrom r a with
  | case1 r => exact ⟨r, hr, fun t _ => rfl⟩
  | case2 cs ih =>
    obtain ⟨r', hr', happend⟩ := ih trivial
    refine ⟨r', hr', fun t ht => ?_⟩
    simp only [List.cons_append, maskFrom, happend t ht]
  | case3 cs ih =>
    obtain ⟨r', hr', happend⟩ := ih trivial
    refine ⟨r', hr', fun t ht => ?_⟩
    simp only [List.cons_append, maskFrom, happend t ht]
  | case4 c cs hline hblock ih =>
    obtain ⟨r', hr', happend⟩ := ih (by split <;> simp_all [Region.Valid])
    refine ⟨r', hr', fun t ht => ?_⟩
    -- A slash at the end of the first part opens no comment.
    rw [List.cons_append, maskFrom, happend t ht, List.cons_append]
    · exact fun rest hc => append_ne_cons (by decide) ht (fun cs' => hline cs' hc) rest
    · exact fun rest hc => append_ne_cons (by decide) ht (fun cs' => hblock cs' hc) rest
  | case5 c cs ih =>
    obtain ⟨r', hr', happend⟩ := ih (by split <;> trivial)
    refine ⟨r', hr', fun t ht => ?_⟩
    rw [List.cons_append, maskFrom, happend t ht, List.append_assoc]
  | case6 cs ih =>
    obtain ⟨r', hr', happend⟩ := ih trivial
    refine ⟨r', hr', fun t ht => ?_⟩
    simp only [List.cons_append, maskFrom, happend t ht]
  | case7 c cs hclose ih =>
    obtain ⟨r', hr', happend⟩ := ih trivial
    refine ⟨r', hr', fun t ht => ?_⟩
    rw [List.cons_append, maskFrom, happend t ht, List.append_assoc]
    exact fun rest hc => append_ne_cons (by decide) ht (fun cs' => hclose cs' hc) rest
  | case8 quote =>
    -- A backslash at the end of the first part escapes a character that needs no escape.
    refine ⟨.literal quote, hr, fun t ht => ?_⟩
    cases t with
    | nil => rfl
    | cons c t => rw [maskFrom_plain hr ht]; rfl
  | case9 quote c cs ih =>
    obtain ⟨r', hr', happend⟩ := ih hr
    refine ⟨r', hr', fun t ht => ?_⟩
    simp only [List.cons_append, maskFrom, happend t ht]
  | case10 quote c cs hend hescape ih =>
    obtain ⟨r', hr', happend⟩ := ih (by split <;> trivial)
    refine ⟨r', hr', fun t ht => ?_⟩
    have hne : c ≠ '\\' := by
      intro hc
      cases cs with
      | nil => exact hend hc rfl
      | cons d cs => exact hescape d cs hc rfl
    rw [List.cons_append, maskFrom, happend t ht, List.cons_append]
    · exact fun hc _ => hne hc
    · exact fun _ _ hc _ => hne hc

/-! ## What is kept and what is blanked out -/

/-- The second text is the first one with some of its characters blanked out. -/
inductive Masked : List Char → List Char → Prop where
  | nil : Masked [] []
  | keep (c : Char) {cs ms : List Char} : Masked cs ms → Masked (c :: cs) (c :: ms)
  | blank (c : Char) {cs ms : List Char} : Masked cs ms → Masked (c :: cs) (blankOut c ++ ms)

/-- A mask is its text with some characters blanked out. -/
theorem masked_maskFrom (r : Region) (cs : List Char) : Masked cs (maskFrom r cs) := by
  fun_induction maskFrom r cs with
  | case1 => exact .nil
  | case2 cs ih => exact .blank '/' (.blank '/' ih)
  | case3 cs ih => exact .blank '/' (.blank '*' ih)
  | case4 c cs _ _ ih => exact .keep c ih
  | case5 c cs ih => exact .blank c ih
  | case6 cs ih => exact .blank '*' (.blank '/' ih)
  | case7 c cs _ ih => exact .blank c ih
  | case8 => exact .keep _ .nil
  | case9 _ c cs ih => exact .keep _ (.keep c ih)
  | case10 _ c cs _ _ ih => exact .keep c ih

/-- A character is blanked out to as many bytes as it has. -/
theorem byteLength_blankOut (c : Char) : byteLength (blankOut c) = c.utf8Size := by
  have hspaces (k : Nat) : byteLength (List.replicate k ' ') = k := by
    induction k with
    | zero => rfl
    | succ k ih =>
      rw [List.replicate_succ, byteLength, ih]
      show 1 + k = k + 1
      omega
  unfold blankOut
  split
  · rename_i hc
    rw [hc]
    rfl
  · exact hspaces _

/-- A mask has as many bytes as its text. -/
theorem Masked.byteLength_eq {cs ms : List Char} (h : Masked cs ms) :
    byteLength ms = byteLength cs := by
  induction h with
  | nil => rfl
  | keep c _ ih => rw [byteLength, byteLength, ih]
  | blank c _ ih => rw [byteLength_append, byteLength_blankOut, byteLength, ih]

/-- No character vanishes. -/
theorem blankOut_ne_nil (c : Char) : blankOut c ≠ [] := by
  intro hnil
  have hbytes := byteLength_blankOut c
  rw [hnil] at hbytes
  have := c.utf8Size_pos
  simp only [byteLength] at hbytes
  omega

/-- What a character is blanked out to is no word character. -/
theorem isWord_of_mem_blankOut {c d : Char} (h : d ∈ blankOut c) : words.isWord d = false := by
  unfold blankOut at h
  split at h
  · rw [List.mem_singleton.mp h]
    exact words.not_isWord_of_delimiter '\n' (by decide)
  · rw [(List.mem_replicate.mp h).2]
    exact words.not_isWord_of_delimiter ' ' (by decide)

/-- Where a word starts in the mask, the text can be cut. -/
theorem Masked.exists_cut {text x v : List Char} (h : Masked text (x ++ v))
    (hv : startsInWord words v = true) : ∃ a t, text = a ++ t ∧ Masked a x ∧ Masked t v := by
  generalize hm : x ++ v = m at h
  induction h generalizing x with
  | nil =>
    obtain ⟨rfl, rfl⟩ := List.append_eq_nil_iff.mp hm
    exact absurd hv (by simp)
  -- The characters of text and mask are walked through together.
  | @keep c cs ms h ih =>
    cases x with
    | nil =>
      rw [List.nil_append] at hm
      exact ⟨[], c :: cs, rfl, .nil, hm ▸ .keep c h⟩
    | cons d x =>
      obtain ⟨rfl, hrest⟩ := List.cons.inj hm
      obtain ⟨a, t, rfl, ha, ht⟩ := ih hrest
      exact ⟨d :: a, t, rfl, .keep d ha, ht⟩
  | @blank c cs ms h ih =>
    rcases List.append_eq_append_iff.mp hm with ⟨mid, hblank, rfl⟩ | ⟨mid, rfl, hmid⟩
    · -- The word does not start inside what was blanked out.
      cases mid with
      | nil =>
        rw [List.append_nil] at hblank
        exact ⟨[c], cs, rfl, by simpa [hblank] using Masked.blank c .nil, h⟩
      | cons d mid =>
        have hd : words.isWord d = false := isWord_of_mem_blankOut (by rw [hblank]; simp)
        exact absurd hv (by simp [startsInWord, hd])
    · obtain ⟨a, t, rfl, ha, ht⟩ := ih hmid.symm
      exact ⟨c :: a, t, rfl, .blank c ha, ht⟩

/-- A word of the mask stands in the text. -/
theorem Masked.exists_word {w : List Char} (hw : ∀ c ∈ w, words.isWord c = true) {t y : List Char}
    (h : Masked t (w ++ y)) : ∃ b, t = w ++ b := by
  induction w generalizing t with
  | nil => exact ⟨t, rfl⟩
  | cons c w ih =>
    generalize hm : c :: w ++ y = m at h
    cases h with
    | nil => exact nomatch hm
    | keep d h =>
      obtain ⟨rfl, rfl⟩ := List.cons.inj hm
      obtain ⟨b, rfl⟩ := ih (fun d hd => hw d (List.mem_cons_of_mem _ hd)) h
      exact ⟨b, rfl⟩
    | @blank d _ ms h =>
      -- The first character of the word would be one of the blanks.
      have hmem : c ∈ blankOut d := by
        cases hblank : blankOut d with
        | nil => exact absurd hblank (blankOut_ne_nil d)
        | cons e es =>
          rw [hblank] at hm
          rw [(List.cons.inj hm).1]
          exact List.mem_cons_self
      have hword := hw c List.mem_cons_self
      rw [isWord_of_mem_blankOut hmem] at hword
      exact absurd hword (by decide)

/-! ## Words of the mask -/

/-- A word is kept outside comments. -/
theorem maskFrom_word {r : Region} (hr : r.Valid) (hcode : r.isComment = false) {w : List Char}
    (hw : ∀ c ∈ w, words.isWord c = true) (cs : List Char) :
    maskFrom r (w ++ cs) = w ++ maskFrom r cs := by
  induction w with
  | nil => rfl
  | cons c w ih =>
    rw [List.cons_append, maskFrom_plain hr (isPlain_of_isWord (hw c List.mem_cons_self)),
      ih fun d hd => hw d (List.mem_cons_of_mem _ hd), Region.maskChar, hcode]
    rfl

/-- Where a word is left standing, reading is not in a comment. -/
theorem isComment_of_startsInWord {r : Region} (hr : r.Valid) {w : List Char} (hw : Word words w)
    {cs : List Char} (h : startsInWord words (maskFrom r (w ++ cs)) = true) :
    r.isComment = false := by
  cases hcomment : r.isComment with
  | false => rfl
  | true =>
    cases w with
    | nil => exact absurd rfl hw.ne_nil
    | cons c w =>
      -- In a comment the first character of the word would be blanked out.
      rw [List.cons_append, maskFrom_plain hr (isPlain_of_isWord (hw.chars c List.mem_cons_self)),
        Region.maskChar, hcomment, if_pos rfl, startsInWord_append (blankOut_ne_nil c)] at h
      cases hblank : blankOut c with
      | nil => exact absurd hblank (blankOut_ne_nil c)
      | cons d ds =>
        have hd : words.isWord d = false := isWord_of_mem_blankOut (c := c) (by simp [hblank])
        rw [hblank] at h
        exact absurd h (by simp [startsInWord, hd])

/-- If a word is left standing behind a text, a word character at the end of the text is left
    standing, too. -/
theorem endsInWord_maskFrom {r : Region} (hr : r.Valid) {a u m : List Char} (hu : Word words u)
    (b : List Char) (h : maskFrom r (a ++ (u ++ b)) = maskFrom r a ++ m)
    (hm : startsInWord words m = true) (ha : endsInWord words a = true) :
    endsInWord words (maskFrom r a) = true := by
  rcases List.eq_nil_or_concat a with rfl | ⟨a, c, hconcat⟩
  · exact absurd ha (by simp)
  · rw [List.concat_eq_append] at hconcat
    subst hconcat
    have hc : words.isWord c = true := by simpa [endsInWord] using ha
    obtain ⟨r', hr', happend⟩ := maskFrom_append hr a
    have hplain (cs : List Char) : maskFrom r (a ++ (c :: cs)) =
        maskFrom r a ++ r'.maskChar c ++ maskFrom r' cs := by
      rw [happend (c :: cs) (isPlain_of_isWord hc), maskFrom_plain hr' (isPlain_of_isWord hc),
        List.append_assoc]
    have hend : maskFrom r (a ++ [c]) = maskFrom r a ++ r'.maskChar c := by
      rw [hplain []]
      simp [maskFrom]
    -- The character and the word behind it belong to one region.
    have hbehind : maskFrom r' (u ++ b) = m := by
      have hsplit := hplain (u ++ b)
      rw [show a ++ c :: (u ++ b) = a ++ [c] ++ (u ++ b) by simp, h, hend] at hsplit
      exact (List.append_cancel_left hsplit).symm
    have hcode : r'.isComment = false := isComment_of_startsInWord hr' hu (by rwa [hbehind])
    rw [hend, Region.maskChar, hcode]
    simpa [endsInWord] using hc

/-- A whole word of the mask stands in the text as a whole word, and every word that is put in its
    place is left standing by the mask, which does not change otherwise. -/
theorem exists_source_of_mask {text x u y : List Char} (hu : Word words u)
    (h : maskComments text = x ++ u ++ y) (hx : endsInWord words x = false)
    (hy : startsInWord words y = false) :
    ∃ a b, text = a ++ u ++ b ∧ byteLength a = byteLength x ∧
      endsInWord words a = false ∧ startsInWord words b = false ∧
      ∀ w, Word words w → maskComments (a ++ w ++ b) = x ++ w ++ y := by
  have hstands : startsInWord words (u ++ y) = true := by
    rw [startsInWord_append hu.ne_nil, hu.startsInWord]
  -- Where the word is in the text.
  have hmasked : Masked text (x ++ (u ++ y)) := by
    rw [← List.append_assoc, ← h]
    exact masked_maskFrom .code text
  obtain ⟨a, t, rfl, ha, ht⟩ := hmasked.exists_cut hstands
  obtain ⟨b, rfl⟩ := ht.exists_word hu.chars
  -- What the mask makes of the text in front of it and behind it.
  obtain ⟨r, hr, happend⟩ := @maskFrom_append .code trivial a
  obtain ⟨hfront, hbehind⟩ : maskFrom .code a = x ∧ maskFrom r (u ++ b) = u ++ y := by
    refine append_inj_of_byteLength ?_ ?_
    · rw [← happend (u ++ b) (hu.startsPlain b), ← List.append_assoc x]
      exact h
    · rw [(masked_maskFrom .code a).byteLength_eq, ha.byteLength_eq]
  have hcode : r.isComment = false := isComment_of_startsInWord hr hu (by rwa [hbehind])
  have hrest : maskFrom r b = y := by
    rw [maskFrom_word hr hcode hu.chars] at hbehind
    exact List.append_cancel_left hbehind
  refine ⟨a, b, by simp, ha.byteLength_eq.symm, ?_, ?_, fun w hw => ?_⟩
  · refine Bool.eq_false_iff.mpr fun hends => ?_
    have hends' := endsInWord_maskFrom (r := .code) trivial hu b
      (happend (u ++ b) (hu.startsPlain b)) (by rwa [hbehind]) hends
    rw [hfront, hx] at hends'
    exact absurd hends' (by decide)
  · refine Bool.eq_false_iff.mpr fun hstarts => ?_
    cases b with
    | nil => exact absurd hstarts (by simp)
    | cons c b =>
      have hkept := @maskFrom_word words r hr hcode [c] (by simpa [startsInWord] using hstarts) b
      rw [List.singleton_append, List.singleton_append, hrest] at hkept
      rw [hkept] at hy
      exact absurd (hy.symm.trans hstarts) (by decide)
  · rw [List.append_assoc, maskComments, happend (w ++ b) (hw.startsPlain b), hfront,
      maskFrom_word hr hcode hw.chars, hrest, List.append_assoc]

end HotRename.Text
