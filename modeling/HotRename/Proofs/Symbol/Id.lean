import HotRename.Proofs.Except
import HotRename.Proofs.List
import HotRename.Proofs.Symbol.Identifier
import HotRename.Symbol.Kind

/-!
# Identifiers and their texts

A text is an identifier if it is not blank and nothing between its separators is empty. It is then
the text of the identifier, so no two texts stand for one identifier. An identifier whose segments
are free of separators, none of them empty, is read back from its text; a new name that is a name in
source text keeps it so, however often it is given. Main statements:

* `isCutInto_iff`         the segments of a text are decided by it
* `parse_eq_ok_iff`       the texts that are identifiers, and which
* `WellFormed.withNames`  giving names keeps an identifier readable
* `parse_roundTrip`       texts and identifiers, also after names were given
-/

namespace HotRename.SymbolId

/-! ## The segments of a text -/

/-- The segments are what stands between the separators of the text. -/
structure IsCutInto (s : String) (segments : List String) : Prop where
  ne_nil : segments ≠ []
  free : ∀ segment ∈ segments, '/' ∉ segment.toList
  joined : joinSegments segments = s

/-- The segments of a text, joined again, are the text. -/
theorem joinSegments_splitSegments (s : String) : joinSegments (splitSegments s) = s :=
  Text.intercalate_split s

/-- Segments without separators are what their text is split into. -/
theorem splitSegments_joinSegments {segments : List String} (hne : segments ≠ [])
    (hfree : ∀ segment ∈ segments, '/' ∉ segment.toList) :
    splitSegments (joinSegments segments) = segments :=
  Text.split_intercalate hne hfree

/-- There is one way to cut a text at its separators. -/
theorem isCutInto_iff {s : String} {segments : List String} :
    IsCutInto s segments ↔ segments = splitSegments s := by
  constructor
  · intro ⟨hne, hfree, hjoined⟩
    rw [← hjoined, splitSegments_joinSegments hne hfree]
  -- No segment of a split text has a separator in it.
  · rintro rfl
    refine ⟨by simp [splitSegments], ?_, joinSegments_splitSegments s⟩
    intro segment hsegment
    obtain ⟨chars, hchars, rfl⟩ := List.mem_map.mp hsegment
    rw [String.toList_ofList]
    exact Text.not_mem_of_mem_splitOn hchars

/-! ## Reading -/

/-- There is at least the name. -/
theorem segments_ne_nil (id : SymbolId) : id.segments ≠ [] := by
  simp [segments]

/-- Segments make an identifier exactly if none of them is empty. -/
theorem ofSegments_eq_ok_iff {segments : List String} {id : SymbolId} :
    ofSegments segments = .ok id ↔ id.segments = segments ∧ "" ∉ segments := by
  have hempty : segments.any String.isEmpty = true ↔ "" ∈ segments := by simp
  unfold ofSegments
  split
  · rename_i hnone
    rw [List.getLast?_eq_none_iff.mp hnone]
    simp [segments_ne_nil]
  · rename_i name hname
    have hsplit : segments.dropLast ++ [name] = segments := List.dropLast_append_getLast? name hname
    split
    · rename_i hany
      simp [hempty.mp hany]
    · rename_i hany
      rw [hempty] at hany
      constructor
      · intro h
        cases h
        exact ⟨hsplit, hany⟩
      · intro ⟨h, _⟩
        -- The last segment is the name, and those in front of it are the others.
        obtain ⟨outer, last⟩ := id
        obtain ⟨rfl, hlast⟩ := List.append_inj' (h.trans hsplit.symm) rfl
        cases hlast
        rfl

/-- The text has a character that is not blank. -/
def NotBlank (s : String) : Prop :=
  ∃ c ∈ s.toList, Text.isBlank c = false

/-- The test for blank texts. -/
theorem allBlank_eq_false_iff {s : String} : Text.allBlank s = false ↔ NotBlank s := by
  simp [Text.allBlank, NotBlank]

/-- A text is an identifier if it is not blank and none of its segments is empty. -/
theorem parse_eq_ok_iff {s : String} {id : SymbolId} :
    parse s = .ok id ↔ NotBlank s ∧ IsCutInto s id.segments ∧ "" ∉ id.segments := by
  rw [← allBlank_eq_false_iff, isCutInto_iff, parse]
  split
  · rename_i hblank
    simp [hblank]
  -- The segments that are checked are those of the text.
  · rename_i hblank
    rw [ofSegments_eq_ok_iff]
    constructor
    · intro ⟨hsegments, hempty⟩
      exact ⟨Bool.eq_false_iff.mpr hblank, hsegments, hsegments ▸ hempty⟩
    · intro ⟨_, hsegments, hempty⟩
      exact ⟨hsegments, hsegments ▸ hempty⟩

/-- An identifier is written as the text that it was read from. -/
theorem text_of_parse {s : String} {id : SymbolId} (h : parse s = .ok id) : id.text = s :=
  (parse_eq_ok_iff.mp h).2.1.joined

/-- Whether a text is an identifier can be seen from its segments. -/
theorem exists_parse_iff {s : String} {segments : List String} (h : IsCutInto s segments) :
    (∃ id, parse s = .ok id) ↔ NotBlank s ∧ "" ∉ segments := by
  constructor
  · intro ⟨id, hid⟩
    obtain ⟨hblank, hcut, hempty⟩ := parse_eq_ok_iff.mp hid
    rw [isCutInto_iff.mp h, ← isCutInto_iff.mp hcut]
    exact ⟨hblank, hempty⟩
  · intro ⟨hblank, hempty⟩
    have hsplit := List.dropLast_append_getLast h.ne_nil
    refine ⟨⟨segments.dropLast, segments.getLast h.ne_nil⟩, parse_eq_ok_iff.mpr ?_⟩
    rw [SymbolId.segments, hsplit]
    exact ⟨hblank, h, hempty⟩

/-! ## Names in place of a name -/

/-- An identifier that can be read back from its text. -/
structure WellFormed (id : SymbolId) : Prop where
  notBlank : NotBlank id.text
  free : ∀ segment ∈ id.segments, '/' ∉ segment.toList
  nonempty : "" ∉ id.segments

/-- A well-formed identifier is read back from its text. -/
theorem WellFormed.parse_text {id : SymbolId} (h : id.WellFormed) : parse id.text = .ok id :=
  parse_eq_ok_iff.mpr ⟨h.notBlank, ⟨id.segments_ne_nil, h.free, rfl⟩, h.nonempty⟩

/-- An identifier that was read is well formed. -/
theorem wellFormed_of_parse {s : String} {id : SymbolId} (h : parse s = .ok id) :
    id.WellFormed := by
  obtain ⟨hblank, hcut, hempty⟩ := parse_eq_ok_iff.mp h
  exact ⟨by rw [text_of_parse h]; exact hblank, hcut.free, hempty⟩

/-- The text ends with the name. -/
theorem mem_text_of_mem_name {id : SymbolId} {c : Char} (hc : c ∈ id.name.toList) :
    c ∈ id.text.toList := by
  by_cases houter : id.outer = []
  · simp [text, joinSegments, segments, houter, hc]
  · rw [text, joinSegments, segments, String.intercalate_append_of_ne_nil houter (by simp)]
    simp [hc]

/-- One name in place of another keeps an identifier readable. -/
theorem WellFormed.withName {id : SymbolId} (h : id.WellFormed) {name : String}
    (hname : Identifier.validate name = .ok ()) : (id.withName name).WellFormed := by
  have hisName := Identifier.validate_eq_ok_iff.mp hname
  have hne : name ≠ "" := by
    rintro rfl
    cases hisName
  -- Every segment is the new name or one that was there.
  have hmem : ∀ segment ∈ (id.withName name).segments,
      segment ∈ id.segments ∨ segment = name := by
    intro segment hsegment
    rcases List.mem_append.mp hsegment with houter | hlast
    · exact .inl (List.mem_append_left _ houter)
    · exact .inr (List.mem_singleton.mp hlast)
  refine ⟨?_, ?_, ?_⟩
  · obtain ⟨c, hc⟩ := List.exists_mem_of_ne_nil _ (Identifier.ne_nil_of_isName hisName)
    have hpart := Identifier.isPart_of_mem hisName hc
    exact ⟨c, mem_text_of_mem_name hc, Identifier.not_isBlank_of_isPart hpart⟩
  · intro segment hsegment
    rcases hmem segment hsegment with hold | rfl
    · exact h.free segment hold
    · intro hsep
      exact absurd (Identifier.isPart_of_mem hisName hsep) (by decide)
  · intro hempty
    rcases hmem "" hempty with hold | hnew
    · exact h.nonempty hold
    · exact hne hnew.symm

/-- The identifier after names were given to it one after the other. -/
def withNames (id : SymbolId) (names : List String) : SymbolId :=
  names.foldl withName id

/-- So do several names. -/
theorem WellFormed.withNames {id : SymbolId} (h : id.WellFormed) {names : List String}
    (hnames : ∀ name ∈ names, Identifier.validate name = .ok ()) :
    (id.withNames names).WellFormed := by
  induction names generalizing id with
  | nil => exact h
  | cons name names ih =>
    have hhead := h.withName (hnames name List.mem_cons_self)
    exact ih hhead fun name' hname' => hnames name' (List.mem_cons_of_mem _ hname')

/-- Of several names the last remains, and what stands in front of the name stays. -/
theorem withNames_eq (id : SymbolId) (names : List String) :
    id.withNames names = ⟨id.outer, names.getLast?.getD id.name⟩ := by
  induction names generalizing id with
  | nil => rfl
  | cons name names ih =>
    have hstep : id.withNames (name :: names) = (id.withName name).withNames names := rfl
    rw [hstep, ih, withName, List.getLast?_cons, Option.getD_some]

/-! ## What a name has no part in -/

variable {id id' : SymbolId}

/-- The domain depends on what stands in front of the name. -/
theorem domain_congr (houter : id'.outer = id.outer) (hne : id.outer ≠ []) :
    id'.domain = id.domain := by
  obtain ⟨first, rest, hcons⟩ := List.exists_cons_of_ne_nil hne
  simp [domain, segments, houter, hcons]

/-- So does the kind, if there is enough of it. -/
theorem kind_congr (houter : id'.outer = id.outer) (hlong : 2 ≤ id.outer.length) :
    id'.kind = id.kind := by
  -- The segment of the kind is the second one, and not the name.
  have hsegment : id'.kindSegment = id.kindSegment := by
    rw [kindSegment, kindSegment, segments, segments, houter,
      List.getElem?_append_left (by omega), List.getElem?_append_left (by omega)]
  rw [kind, kind, hsegment, qualifiers, qualifiers, houter]

/-- What is left of an identifier after names were given to it. -/
structure Named (id : SymbolId) (names : List String) (id' : SymbolId) : Prop where
  /-- It is read back from its text. -/
  parsed : parse id'.text = .ok id'
  /-- Its name is the last one given. -/
  name : id'.segments.getLast? = some (names.getLast?.getD id.name)
  /-- All other segments are those that it had. -/
  outer : id'.segments.dropLast = id.segments.dropLast
  kept : 3 ≤ id.segments.length →
    id'.domain = id.domain ∧ id'.qualifiers = id.qualifiers ∧ id'.kind = id.kind

/-- What is left of a well-formed identifier after names were given to it. -/
theorem WellFormed.named (h : id.WellFormed) {names : List String}
    (hnames : ∀ name ∈ names, Identifier.validate name = .ok ()) :
    id.Named names (id.withNames names) := by
  -- Only the name changes, and all else is read off the segments before it.
  have houter : (id.withNames names).outer = id.outer := by rw [withNames_eq]
  refine ⟨(h.withNames hnames).parse_text, ?_, ?_, ?_⟩
  · rw [withNames_eq]
    simp [segments]
  · simp [segments, houter]
  · intro hlong
    have hlong : 2 ≤ id.outer.length := by
      simp only [segments, List.length_append, List.length_cons, List.length_nil] at hlong
      omega
    have hne : id.outer ≠ [] := List.ne_nil_of_length_pos (by omega)
    exact ⟨domain_congr houter hne, by rw [qualifiers, qualifiers, houter],
      kind_congr houter hlong⟩

/-! ## Texts and identifiers -/

/-- Every text is cut into segments in one way, and it is an identifier exactly if it is not blank
    and none of its segments is empty. It is then the text of the identifier, so different texts
    are different identifiers. Names that are given to an identifier that was read leave one that
    is read back from its text and has the last of the names in place of its own. -/
theorem parse_roundTrip :
    (∀ s, ∃ segments, IsCutInto s segments ∧
      (∀ others, IsCutInto s others → others = segments) ∧
      ((∃ id, parse s = .ok id) ↔ NotBlank s ∧ "" ∉ segments)) ∧
    (∀ s id, parse s = .ok id → id.text = s ∧ IsCutInto s id.segments) ∧
    (∀ s t id, parse s = .ok id → parse t = .ok id → s = t) ∧
    (∀ s id names, parse s = .ok id → (∀ name ∈ names, Identifier.validate name = .ok ()) →
      id.Named names (id.withNames names)) := by
  refine ⟨?_, ?_, ?_, ?_⟩
  · intro s
    have hcut : IsCutInto s (splitSegments s) := isCutInto_iff.mpr rfl
    exact ⟨splitSegments s, hcut, fun others => isCutInto_iff.mp, exists_parse_iff hcut⟩
  · intro s id h
    exact ⟨text_of_parse h, (parse_eq_ok_iff.mp h).2.1⟩
  · intro s t id hs ht
    rw [← text_of_parse hs, text_of_parse ht]
  · intro s id names h hnames
    exact (wellFormed_of_parse h).named hnames

/-- A segment of blanks is no empty segment. -/
theorem parse_roundTrip_blankOwner :
    ∃ id, parse "proj/Var/ /hp" = .ok id ∧ id.text = "proj/Var/ /hp" ∧
      (∀ name ∈ ["health", "_life2"], Identifier.validate name = .ok ()) ∧
      id.Named ["health", "_life2"] (id.withNames ["health", "_life2"]) ∧
      (id.withNames ["health", "_life2"]).text = "proj/Var/ /_life2" := by
  have h : parse "proj/Var/ /hp" = .ok ⟨["proj", "Var", " "], "hp"⟩ :=
    Except.toOption_eq_some.mp (by decide)
  -- The names are checked by their characters.
  have hisName : ∀ name ∈ ["health", "_life2"], Identifier.isName name.toList = true := by decide
  have hnames : ∀ name ∈ ["health", "_life2"], Identifier.validate name = .ok () :=
    fun name hname => Identifier.validate_eq_ok_iff.mpr (hisName name hname)
  obtain ⟨-, htext, -, hnamed⟩ := parse_roundTrip
  exact ⟨_, h, (htext _ _ h).1, hnames, hnamed _ _ _ h hnames, by decide⟩

end HotRename.SymbolId
