import HotRename.Proofs.Text.Word
import HotRename.Symbol.Identifier

/-!
# Names are words

A name is not empty, and all of its characters are word characters. A set of reserved words that is
extended reserves the further words in their normal forms, and the empty name never.
-/

namespace HotRename

namespace Identifier

/-- A name is accepted exactly if it is one. -/
theorem validate_eq_ok_iff {name : String} :
    validate name = .ok () ↔ isName name.toList = true := by
  unfold validate
  split <;> simp_all

/-- Digits, capital letters, small letters, and the underscore. -/
theorem toNat_of_isPart {c : Char} (h : isPart c = true) :
    (48 ≤ c.toNat ∧ c.toNat ≤ 57) ∨ (65 ≤ c.toNat ∧ c.toNat ≤ 90) ∨
      (97 ≤ c.toNat ∧ c.toNat ≤ 122) ∨ c.toNat = 95 := by
  rcases Bool.or_eq_true_iff.mp h with halphanum | hunderscore
  · have hrange := Text.toNat_of_isAlphanum halphanum
    omega
  · exact .inr (.inr (.inr (congrArg Char.toNat (of_decide_eq_true hunderscore))))

/-- No character of a name is blank. -/
theorem not_isBlank_of_isPart {c : Char} (h : isPart c = true) : Text.isBlank c = false := by
  have hrange := toNat_of_isPart h
  simp only [Text.isBlank, Bool.or_eq_false_iff, Bool.and_eq_false_iff, decide_eq_false_iff_not,
    beq_eq_false_iff_ne]
  omega

/-- Every character of a name may continue one. -/
theorem isPart_of_mem {cs : List Char} (h : isName cs = true) {c : Char} (hc : c ∈ cs) :
    isPart c = true := by
  cases cs with
  | nil => cases hc
  | cons first rest =>
    obtain ⟨hstart, hparts⟩ := Bool.and_eq_true_iff.mp h
    rcases List.mem_cons.mp hc with rfl | hc
    -- What may start a name may continue it.
    · simp only [isStart, Bool.or_eq_true] at hstart
      simp only [isPart, Char.isAlphanum, Bool.or_eq_true]
      exact hstart.imp_left Or.inl
    · exact List.all_eq_true.mp hparts c hc

/-- The empty text is no name. -/
theorem ne_nil_of_isName {cs : List Char} (h : isName cs = true) : cs ≠ [] := by
  rintro rfl
  cases h

/-- A name is a word, whatever else words may be made of. -/
theorem word_of_isName (words : Text.WordClass) {cs : List Char} (h : isName cs = true) :
    Text.Word words cs :=
  ⟨ne_nil_of_isName h, fun c hc => words.isWord_of_name c (isPart_of_mem h hc)⟩

end Identifier

namespace ReservedWords

/-- A further word is reserved in its normal form, unless that is empty. -/
theorem mem_insert {r : ReservedWords} {word form : String} :
    form ∈ (r.insert word).words ↔ form ∈ r.words ∨ form ≠ "" ∧ normal word = form := by
  unfold insert
  split
  · rename_i hold
    rw [Bool.or_eq_true, decide_eq_true_eq, List.contains_iff_mem] at hold
    refine ⟨.inl, ?_⟩
    -- A word that is not added is empty, or reserved already.
    rintro (h | ⟨hne, rfl⟩)
    · exact h
    · exact hold.resolve_left hne
  · rename_i hnew
    rw [Bool.or_eq_true, decide_eq_true_eq, not_or] at hnew
    simp only [List.mem_append, List.mem_singleton]
    refine or_congr_right ⟨?_, fun h => h.2.symm⟩
    rintro rfl
    exact ⟨hnew.1, rfl⟩

/-- Several words are reserved like single ones. -/
theorem mem_extend {r : ReservedWords} {words : List String} {form : String} :
    form ∈ (r.extend words).words ↔
      form ∈ r.words ∨ form ≠ "" ∧ ∃ word ∈ words, normal word = form := by
  induction words generalizing r with
  | nil => simp [extend]
  | cons word words ih =>
    have hstep : form ∈ (r.extend (word :: words)).words ↔ _ := ih (r := r.insert word)
    rw [hstep, mem_insert, or_assoc, ← and_or_left]
    simp [eq_comm]

/-- A text is put into lower case character by character. -/
theorem toList_toLower (name : String) : name.toLower.toList = name.toList.map Char.toLower :=
  String.toList_map

/-- Only the empty text becomes empty. -/
theorem toLower_eq_empty {name : String} : name.toLower = "" ↔ name = "" := by
  rw [← String.toList_inj, ← String.toList_inj, toList_toLower]
  simp

/-- A name is reserved if it was before, or if it is not empty and, apart from its case, one of the
    further words without the blanks around it. -/
theorem contains_extend_iff {r : ReservedWords} {words : List String} {name : String} :
    (r.extend words).contains name = true ↔
      r.contains name = true ∨
        name ≠ "" ∧ ∃ word ∈ words, (Text.trim word).toLower = name.toLower := by
  rw [contains, List.contains_iff_mem, mem_extend, ne_eq, toLower_eq_empty, contains,
    List.contains_iff_mem]
  rfl

end ReservedWords

end HotRename
