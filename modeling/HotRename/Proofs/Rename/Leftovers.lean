import HotRename.Proofs.Rename.Integrity
import HotRename.Proofs.Text.Mask
import Mathlib.Order.Bounds.Basic

/-!
# Names that are left over

The check searches the mask of a file, but what it reports is meant for a reader of the file. So the
words of the mask have to be those of the file that stand outside comments, at the offsets that they
have there. A word next to a comment is no exception: what stands between the two is a mark of the
comment, or the line end behind it. Main statements:

* `isWordAt_maskComments`  the whole words of a mask
* `findWord_eq_some_iff`   the search finds the least offset
* `verify_eq_ok_iff`       when there is a report, and what is in it
* `verify_leftovers`       in which files a report says the name is left, and where
-/

namespace HotRename

/-! ## Words outside comments -/

namespace Text

variable {words : WordClass} {name text : List Char} {n : Nat}

/-- The name stands in the text at the offset with no word character next to it, and no byte of it
    belongs to a comment. -/
structure StandsOutside (words : WordClass) (name text : List Char) (n : Nat) : Prop where
  stands : ∃ before after, text = before ++ name ++ after ∧ byteLength before = n ∧
    endsInWord words before = false ∧ startsInWord words after = false
  outside : ∀ k < byteLength name, ¬ InComment text (n + k)

/-- Texts with the same bytes are the same. -/
theorem utf8_injective {a b : List Char} (h : utf8 a = utf8 b) : a = b := by
  rw [← bytes_ofList, ← bytes_ofList] at h
  exact String.ofList_injective (bytes_injective h)

/-- No byte of a word is one that the mask leaves of a comment. -/
theorem Word.blankByte_not_mem (hname : Word words name) (b : UInt8) : blankByte b ∉ utf8 name := by
  intro hmem
  obtain ⟨c, hc, hbyte⟩ := List.mem_flatMap.mp hmem
  have hword := hname.chars c hc
  unfold blankByte at hbyte
  split at hbyte
  -- The mask leaves line breaks and puts spaces, and neither is a word character.
  · have hline : c = '\n' := eq_of_mem_utf8EncodeChar (d := '\n') (by decide) hbyte
    rw [hline, words.not_isWord_of_delimiter '\n' (by decide)] at hword
    exact absurd hword (by decide)
  · have hspace : c = ' ' := eq_of_mem_utf8EncodeChar (d := ' ') (by decide) hbyte
    rw [hspace, words.not_isWord_of_delimiter ' ' (by decide)] at hword
    exact absurd hword (by decide)

/-- A word that is left standing by the mask has no byte in a comment. -/
theorem not_inComment_of_mask {x y : List Char} (hname : Word words name)
    (hmask : maskComments text = x ++ name ++ y) {k : Nat} (hk : k < byteLength name) :
    ¬ InComment text (byteLength x + k) := by
  intro hcomment
  obtain ⟨b, hb⟩ := hcomment.exists_byte
  have hbyte : (utf8 name)[k]? = some (blankByte b) := by
    rw [← byte_middle x y hk, ← hmask, byte_of_inComment hcomment, hb, Option.map_some]
  exact hname.blankByte_not_mem b (List.mem_of_getElem? hbyte)

/-- What stands outside comments is kept as it is. -/
theorem Masked.eq_of_outside {before after x y z : List Char}
    (hmask : maskComments (before ++ name ++ after) = x ++ y ++ z)
    (hx : Masked before x) (hy : Masked name y)
    (houtside : ∀ k < byteLength name,
      ¬ InComment (before ++ name ++ after) (byteLength before + k)) : y = name := by
  apply utf8_injective
  apply List.ext_getElem?
  intro k
  by_cases hk : k < byteLength name
  -- The byte is not in a comment, and the masked parts are as long as their sources.
  · have hkept := byte_of_not_inComment (houtside k hk)
    rw [byte_middle before after hk, hmask, ← hx.byteLength_eq,
      byte_middle x z (by rw [hy.byteLength_eq]; exact hk)] at hkept
    exact hkept
  · -- Behind its end, neither of them has any bytes.
    rw [List.getElem?_eq_none, List.getElem?_eq_none]
    · rw [length_utf8]
      omega
    · rw [length_utf8, hy.byteLength_eq]
      omega

/-- No word starts in the mask where none starts in the text. -/
theorem Masked.startsInWord {cs ms : List Char} (h : Masked cs ms)
    (hms : startsInWord words ms = true) : startsInWord words cs = true := by
  cases h with
  | nil => exact hms
  | keep c _ => exact hms
  | blank c _ =>
    rw [startsInWord_append (blankOut_ne_nil c)] at hms
    obtain ⟨d, hd, hword⟩ := (Option.any_eq_true _ _).mp hms
    rw [isWord_of_mem_blankOut (List.mem_of_head? hd)] at hword
    exact absurd hword (by decide)

/-- No word ends in the mask where none ends in the text. -/
theorem Masked.endsInWord {cs ms : List Char} (h : Masked cs ms)
    (hms : endsInWord words ms = true) : endsInWord words cs = true := by
  rcases List.eq_nil_or_concat cs with rfl | ⟨front, c, hconcat⟩
  · cases h
    exact hms
  · rw [List.concat_eq_append] at hconcat
    subst hconcat
    obtain ⟨x, y, rfl, -, hy⟩ := h.exists_append
    rw [endsInWord_append front (List.cons_ne_nil c [])]
    -- The last character is kept, or nothing but blanks is left of it.
    cases hy with
    | keep c hrest =>
      cases hrest
      rwa [endsInWord_append x (List.cons_ne_nil c [])] at hms
    | blank c hrest =>
      cases hrest
      rw [List.append_nil, endsInWord_append x (blankOut_ne_nil c)] at hms
      obtain ⟨d, hd, hword⟩ := (Option.any_eq_true _ _).mp hms
      rw [isWord_of_mem_blankOut (List.mem_of_getLast? hd)] at hword
      exact absurd hword (by decide)

/-- The whole words of a mask are those of the text that stand outside comments. -/
theorem isWordAt_maskComments (hname : Word words name) :
    IsWordAt words name (maskComments text) n ↔ StandsOutside words name text n := by
  constructor
  · intro h
    obtain ⟨x, y, hmask, rfl, hx, hy⟩ := (isWordAt_iff hname).mp h
    obtain ⟨a, b, htext, hbytes, ha, hb, -⟩ := exists_source_of_mask hname hmask hx hy
    exact ⟨⟨a, b, htext, hbytes, ha, hb⟩, fun k hk => not_inComment_of_mask hname hmask hk⟩
  · rintro ⟨⟨before, after, rfl, rfl, hbefore, hafter⟩, houtside⟩
    -- The mask is cut where the text is, and keeps the part in the middle.
    obtain ⟨xy, z, hmask, hxy, hz⟩ :=
      (masked_maskFrom .code (before ++ name ++ after)).exists_append
    obtain ⟨x, y, rfl, hx, hy⟩ := hxy.exists_append
    obtain rfl := hx.eq_of_outside hmask hy houtside
    refine (isWordAt_iff hname).mpr ⟨x, z, hmask, hx.byteLength_eq, ?_, ?_⟩
    · exact Bool.eq_false_iff.mpr fun hends => by simp [hx.endsInWord hends] at hbefore
    · exact Bool.eq_false_iff.mpr fun hstarts => by simp [hz.startsInWord hstarts] at hafter

/-! ## The first word -/

/-- The offsets that are listed do not lie before the start. -/
theorem le_of_mem_wordOffsetsFrom {before : Option Char} {offset : Nat}
    (h : n ∈ wordOffsetsFrom words name before offset text) : offset ≤ n := by
  induction text generalizing before offset with
  | nil =>
    rw [wordOffsetsFrom] at h
    split at h
    · rw [List.mem_singleton.mp h]
    · cases h
  | cons c cs ih =>
    rw [wordOffsetsFrom] at h
    -- What is found in the rest lies behind the first character.
    have hrest : n ∈ wordOffsetsFrom words name (some c) (offset + c.utf8Size) cs → offset ≤ n := by
      intro hmem
      have := ih hmem
      omega
    split at h
    · rcases List.mem_cons.mp h with rfl | hmem
      · exact Nat.le_refl _
      · exact hrest hmem
    · exact hrest h

/-- The offsets of the words are listed in ascending order. -/
theorem wordOffsetsFrom_pairwise (name : List Char) (before : Option Char) (offset : Nat)
    (text : List Char) : (wordOffsetsFrom words name before offset text).Pairwise (· < ·) := by
  induction text generalizing before offset with
  | nil =>
    rw [wordOffsetsFrom]
    split <;> simp
  | cons c cs ih =>
    rw [wordOffsetsFrom]
    split
    · refine List.pairwise_cons.mpr ⟨fun m hm => ?_, ih _ _⟩
      -- All later ones lie behind at least one character.
      have hle := le_of_mem_wordOffsetsFrom hm
      have hpos := c.utf8Size_pos
      omega
    · exact ih _ _

/-- The search finds the least of the offsets at which the name stands as a whole word. -/
theorem findWord_eq_some_iff :
    findWord words name text = some n ↔ IsLeast {m | IsWordAt words name text m} n := by
  have hfirst : findWord words name text = (wordOffsets words name text).head? :=
    findWordFrom_eq_head? none 0
  have hasc : (wordOffsets words name text).Pairwise (· < ·) :=
    wordOffsetsFrom_pairwise name none 0 text
  simp only [hfirst, ← mem_wordOffsets]
  generalize wordOffsets words name text = offsets at hasc
  cases offsets with
  | nil => simp [IsLeast]
  | cons m ms =>
    -- The first of the ascending offsets is the least one.
    have hleast : IsLeast {k | k ∈ m :: ms} m := by
      refine ⟨List.mem_cons_self, fun k hk => ?_⟩
      rcases List.mem_cons.mp hk with rfl | hk
      · exact Nat.le_refl _
      · exact Nat.le_of_lt (List.rel_of_pairwise_cons hasc hk)
    rw [List.head?_cons, Option.some.injEq]
    constructor
    · rintro rfl
      exact hleast
    · exact fun h => hleast.unique h

/-- The search of a mask finds the least offset at which the name stands outside comments. -/
theorem findWord_maskComments (hname : Word words name) :
    findWord words name (maskComments text) = some n ↔
      IsLeast {m | StandsOutside words name text m} n := by
  simp only [findWord_eq_some_iff, isWordAt_maskComments hname]

/-- The search finds something exactly if the name stands outside comments. -/
theorem findWord_maskComments_isSome (hname : Word words name) :
    (findWord words name (maskComments text)).isSome = true ↔
      ∃ m, StandsOutside words name text m := by
  simp only [← isWordAt_maskComments hname]
  exact hasWord_iff

end Text

/-! ## The files of a report -/

/-- Each file that the paths name is listed once, under one of the paths. -/
structure Path.ListedOnce (files paths : List Path) : Prop where
  distinct : files.Pairwise fun p q => p.same q = false
  listed : ∀ p ∈ files, p ∈ paths
  all : ∀ p ∈ paths, ∃ q ∈ files, p.same q = true

/-- A set lists each file once. -/
theorem Path.listedOnce_set (paths : List Path) : ListedOnce (set paths) paths where
  distinct := (sort_pairwise (lastSpellings_pairwise paths)).imp not_same_of_lt
  listed _ := mem_of_mem_set
  all p hp := by
    have hany : (set paths).any p.same = true := by
      rw [any_same_set]
      exact List.any_eq_true.mpr ⟨p, hp, same_self p⟩
    exact List.any_eq_true.mp hany

namespace Engine

variable {e : Engine} {id : SymbolId} {oldName newName : String} {edited : List Path}
  {read : Path → Except StorageError String} {report : IntegrityReport}

/-- What is said about a file that holds the text. `first` is where the old name is said to be left,
    and the rest is about the new name and the parser. -/
structure SaidOf (e : Engine) (oldName newName : String) (p : Path) (text : String)
    (first : Option Nat) (said : List String) : Prop where
  said_eq :
    said = (first.map fun n => s!"{p.text} still contains '{oldName}' at byte {n}").toList ++
      Integrity.absent e.words p newName text ++ (e.parseErrors p).answer
  leftover : first.isSome = true ↔ ∃ n, Text.StandsOutside e.words oldName.toList text.toList n
  least : ∀ n, first = some n →
    IsLeast {m | Text.StandsOutside e.words oldName.toList text.toList m} n

/-- A file that can be read is searched for the old name outside comments. -/
theorem exists_saidOf (hname : Text.Word e.words oldName.toList) {p : Path} {text : String}
    (hread : read p = .ok text) :
    ∃ first, e.SaidOf oldName newName p text first (e.inspect oldName newName read p).answer.2 := by
  refine ⟨Text.findWord e.words oldName.toList (Text.maskComments text.toList), ?_,
    Text.findWord_maskComments_isSome hname, fun n => (Text.findWord_maskComments hname).mp⟩
  rw [Engine.inspect, hread]
  simp only [Asked.answer_bind, Asked.answer_pure, Integrity.leftover]
  cases Text.findWord e.words oldName.toList (Text.maskComments text.toList) <;> rfl

/-- All that is said of a file that cannot be read. -/
theorem inspect_unread {p : Path} {err : StorageError} (hread : read p = .error err) :
    (e.inspect oldName newName read p).answer.2 = [s!"cannot read {p.text}: {err.message}"] := by
  rw [Engine.inspect, hread]
  rfl

/-! ## The report -/

/-- Both names can be searched for, and the analyzer does not fail if it is asked for files that
    were not edited. -/
structure CanVerify (e : Engine) (id : SymbolId) (newName : String) : Prop where
  old : e.unsearchable? id.name = none
  new : e.unsearchable? newName = none
  strays : e.config.checkStrayOccurrences = true → ∀ capability reason,
    e.analyzer.occurrences (id.withName newName) ≠ .error (.failed capability reason)

/-- A name passes exactly if it can be searched for. -/
theorem checkSearchable_eq_ok_iff {name : String} {u : Unit} :
    (e.checkSearchable name).result = .ok u ↔ e.unsearchable? name = none := by
  unfold checkSearchable
  cases e.unsearchable? name <;> simp

/-- The search for other files succeeds unless the analyzer is asked and fails. -/
theorem exists_strayWarnings_iff {renamed : SymbolId} {files : List Path} :
    (∃ warnings, (e.strayWarnings renamed files).result = .ok warnings) ↔
      (e.config.checkStrayOccurrences = true → ∀ capability reason,
        e.analyzer.occurrences renamed ≠ .error (.failed capability reason)) := by
  unfold strayWarnings
  split
  · rename_i hstrays
    simp only [hstrays, forall_true_left, occurrencesOf, Inquiry.result_bind, Inquiry.result_ask]
    -- A missing capability counts as an answer without occurrences.
    cases e.analyzer.occurrences renamed with
    | ok occurrences => simp [Answer.orDefault, Except.mapError_ok, Except.ok_bind]
    | error err =>
      cases err with
      | unsupported capability => simp [Answer.orDefault, Except.mapError_ok, Except.ok_bind]
      | failed capability reason =>
        simp [Answer.orDefault, Except.mapError_error, Except.bind_eq_ok]
  · rename_i hstrays
    simp [hstrays]

/-- When there is a report, and what it says. -/
theorem verify_eq_ok_iff :
    (e.verify id newName edited read).result = .ok report ↔
      e.unsearchable? id.name = none ∧ e.unsearchable? newName = none ∧
      ∃ warnings, (e.strayWarnings (id.withName newName) (Path.set edited)).result = .ok warnings ∧
        report =
          let errors := (Path.set edited).flatMap fun p =>
            (e.inspect id.name newName read p).answer.2
          { valid := errors.isEmpty, errors, warnings,
            filesChecked := (Path.set edited).countP fun p => (read p).isOk } := by
  simp only [verify, Inquiry.result_bind, Inquiry.result_lift, Inquiry.result_pure, Except.ok_bind,
    Except.bind_eq_ok, exists_const, checkSearchable_eq_ok_iff, inspectAll_answer, List.flatMap_map,
    List.countP_map, Function.comp_def, inspect_fst, Except.ok.injEq, eq_comm (b := report)]

/-- The report about the edited files is exact. Each file is examined once; one that cannot be read
    is said to be so, and one that can be read is said to contain the old name exactly if the name
    stands in it outside comments. -/
structure ExactReport (e : Engine) (oldName newName : String) (edited : List Path)
    (read : Path → Except StorageError String) (report : IntegrityReport) : Prop where
  valid : report.valid = true ↔ report.errors = []
  files : ∃ files said, Path.ListedOnce files edited ∧
    report.errors = files.flatMap said ∧
    report.filesChecked = files.countP (fun p => (read p).isOk) ∧
    (∀ p ∈ files, ∀ err, read p = .error err →
      said p = [s!"cannot read {p.text}: {err.message}"]) ∧
    ∀ p ∈ files, ∀ text, read p = .ok text →
      ∃ first, e.SaidOf oldName newName p text first (said p)

/-- There is a report exactly if both names can be searched for and the analyzer does not fail, and
    it is exact about the old name. -/
theorem verify_leftovers (hname : Identifier.isName id.name.toList = true) :
    ((∃ report, (e.verify id newName edited read).result = .ok report) ↔ e.CanVerify id newName) ∧
      ∀ report, (e.verify id newName edited read).result = .ok report →
        e.ExactReport id.name newName edited read report := by
  have hword := Identifier.word_of_isName e.words hname
  simp only [verify_eq_ok_iff]
  constructor
  · constructor
    · rintro ⟨_, hold, hnew, warnings, hwarnings, -⟩
      exact ⟨hold, hnew, exists_strayWarnings_iff.mp ⟨warnings, hwarnings⟩⟩
    · rintro ⟨hold, hnew, hstrays⟩
      obtain ⟨warnings, hwarnings⟩ := exists_strayWarnings_iff.mpr hstrays
      exact ⟨_, hold, hnew, warnings, hwarnings, rfl⟩
  -- The set of the edited files lists each of them once.
  · rintro report ⟨-, -, warnings, -, rfl⟩
    exact ⟨List.isEmpty_iff, Path.set edited, _, Path.listedOnce_set edited, rfl, rfl,
      fun p _ err hread => inspect_unread hread, fun p _ text hread => exists_saidOf hword hread⟩

/-- The paths of two files, one of them in two spellings. -/
def twoFiles : List Path :=
  [⟨"src/a.gml"⟩, ⟨"b.gml"⟩, ⟨"src//a.gml"⟩]

/-- One of the files cannot be read. In the other, the old name stands in comments, in a longer
    word, and right behind a comment. -/
def halfRenamed (p : Path) : Except StorageError String :=
  if p.same ⟨"src/a.gml"⟩ then .ok "// é hp\nhp_x = life; /* hp */hp"
  else .error (.notFound p)

/-- The last spelling of the file is kept. -/
theorem set_twoFiles : Path.set twoFiles = [⟨"b.gml"⟩, ⟨"src//a.gml"⟩] := by
  have hlast : Path.lastSpellings twoFiles = [⟨"b.gml"⟩, ⟨"src//a.gml"⟩] := by decide
  rw [Path.set, hlast, Path.sort, List.mergeSort_of_pairwise]
  decide

/-- What is said of the two files. -/
theorem verify_leftovers_halfRenamed :
    Identifier.isName hp.name.toList = true ∧
    ∃ report, ((knowing hp hpOccurrences []).verify hp "life" twoFiles halfRenamed).result =
        .ok report ∧
      report.errors = ["cannot read b.gml: file not found: b.gml",
        "src//a.gml still contains 'hp' at byte 30"] ∧
      (knowing hp hpOccurrences []).ExactReport "hp" "life" twoFiles halfRenamed report := by
  have hname : Identifier.isName hp.name.toList = true := by decide
  have hreport : ((knowing hp hpOccurrences []).verify hp "life" twoFiles halfRenamed).result = .ok
      { valid := false
        errors := ["cannot read b.gml: file not found: b.gml",
          "src//a.gml still contains 'hp' at byte 30"]
        warnings := []
        filesChecked := 1 } := by
    rw [verify, set_twoFiles]
    decide +kernel
  exact ⟨hname, _, hreport, rfl, (verify_leftovers hname).2 _ hreport⟩

end Engine
end HotRename
