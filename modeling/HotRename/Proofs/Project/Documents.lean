import HotRename.Collaborator.Patch
import HotRename.Collaborator.SyntaxTree
import HotRename.Project.Manifest
import HotRename.Proofs.Except
import HotRename.Proofs.Json.Decode
import HotRename.Proofs.Path.Order
import HotRename.Proofs.Symbol.Id
import HotRename.Rename.Cascade

/-!
# Documents are read back

Every value that is read from a document is read again from the document that it is written as,
whatever form the first document had. Which values those are is said for each type: numbers have to
fit, identifiers have to be well formed, and tables have to be in order. For a record all this is
shown field by field: `fields_toJson` says where each field is written, `codec` that it is read
there. Main statements:

* `SymbolId.codec`                   an identifier is written as it was read
* `SyntaxNode.ofJsonWithin_toJson`   a tree is read within the height of what is written
* `Manifest.pathTable?_codec`        a table of files keeps one spelling of each
* `documents_read_back`              all documents
-/

namespace HotRename

open Json (Codec Fits)

/-! ## Texts -/

/-- Every path can be written. -/
theorem Path.codec : Codec Path.ofJson? Path.toJson fun _ => True where
  valid _ _ _ := trivial
  reads _ _ := rfl

/-- The names of the cases are told apart. -/
theorem OccurrenceKind.codec :
    Codec OccurrenceKind.ofJson? (fun k => .text k.name) fun _ => True where
  valid _ _ _ := trivial
  reads k _ := by cases k <;> rfl

/-- So are the names of the kinds of conflicts. -/
theorem ConflictKind.codec : Codec ConflictKind.ofJson? (fun k => .text k.name) fun _ => True where
  valid _ _ _ := trivial
  reads k _ := by cases k <;> rfl

/-- So are those of the severities. -/
theorem Severity.codec : Codec Severity.ofJson? (fun s => .text s.name) fun _ => True where
  valid _ _ _ := trivial
  reads s _ := by cases s <;> rfl

/-- The identifiers in documents are the well-formed ones. -/
theorem SymbolId.codec : Codec ofJson? toJson WellFormed where
  valid := by
    intro j id h
    obtain ⟨s, -, hparse⟩ := Option.bind_eq_some_iff.mp h
    exact wellFormed_of_parse (Except.toOption_eq_some.mp hparse)
  reads _ h := Except.toOption_eq_some.mpr h.parse_text

/-- Every kind can be written, one with an unknown segment, too. -/
theorem SymbolKind.codec : Codec SymbolKind.ofJson? SymbolKind.toJson fun _ => True where
  valid _ _ _ := trivial
  reads kind _ := by
    cases kind with
    | var scope => cases scope <;> rfl
    | _ => rfl

/-! ## Records -/

/-- Where the fields of a span are written. -/
theorem Span.fields_toJson (s : Span) :
    s.toJson.fields ["start", "end"] = some [some (.nat s.start), some (.nat s.stop)] := rfl

/-- Both offsets of a span fit. -/
def Span.Representable (s : Span) : Prop :=
  Fits s.start ∧ Fits s.stop

/-- The spans in documents are those whose offsets fit. -/
theorem Span.codec : Codec Span.ofJson? Span.toJson Span.Representable where
  valid := by
    intro j s h
    unfold ofJson? at h
    split at h
    · simp only [Option.bind_eq_bind, Option.bind_eq_some_iff, Option.pure_def] at h
      -- Each offset that is read fits.
      obtain ⟨start, hstart, stop, hstop, hrecord⟩ := h
      cases hrecord
      exact ⟨Json.codec_nat.required.valid _ _ hstart, Json.codec_nat.required.valid _ _ hstop⟩
    · cases h
  reads := by
    rintro s ⟨hstart, hstop⟩
    rw [ofJson?, fields_toJson]
    simp [Json.codec_nat.required.reads _ hstart, Json.codec_nat.required.reads _ hstop]

/-- Where the fields of an occurrence are written; a scope that is missing is left out. -/
theorem Occurrence.fields_toJson (o : Occurrence) :
    o.toJson.fields ["path", "start", "end", "scope_id", "kind"] =
      some [some o.path.toJson, some (.nat o.start), some (.nat o.stop), o.scope.map .text,
        some (.text o.kind.name)] := by
  obtain ⟨path, start, stop, scope, kind⟩ := o
  cases scope <;> rfl

/-- Both offsets of an occurrence fit. -/
def Occurrence.Representable (o : Occurrence) : Prop :=
  Fits o.start ∧ Fits o.stop

instance : DecidablePred Occurrence.Representable :=
  fun o => inferInstanceAs (Decidable (Fits o.start ∧ Fits o.stop))

/-- So are the occurrences, with a scope or without. -/
theorem Occurrence.codec : Codec Occurrence.ofJson? Occurrence.toJson Occurrence.Representable where
  valid := by
    intro j o h
    unfold ofJson? at h
    split at h
    · simp only [Option.bind_eq_bind, Option.bind_eq_some_iff, Option.pure_def] at h
      obtain ⟨_, -, start, hstart, stop, hstop, _, -, _, -, hrecord⟩ := h
      cases hrecord
      exact ⟨Json.codec_nat.required.valid _ _ hstart, Json.codec_nat.required.valid _ _ hstop⟩
    · cases h
  reads := by
    rintro o ⟨hstart, hstop⟩
    rw [ofJson?, fields_toJson]
    simp [Path.codec.required.reads _ trivial, Json.codec_nat.required.reads _ hstart,
      Json.codec_nat.required.reads _ hstop, OccurrenceKind.codec.required.reads _ trivial,
      (Json.codec_text.optionalField fun _ => nofun).reads o.scope fun _ _ => trivial]

/-- Where the fields of an edit are written. -/
theorem TextEdit.fields_toJson (e : TextEdit) :
    e.toJson.fields ["path", "start", "end", "new_text"] =
      some [some e.path.toJson, some (.nat e.start), some (.nat e.stop),
        some (.text e.newText)] := rfl

/-- Both offsets of an edit fit. -/
def TextEdit.Representable (e : TextEdit) : Prop :=
  Fits e.start ∧ Fits e.stop

/-- The new text of an edit may be any text. -/
theorem TextEdit.codec : Codec TextEdit.ofJson? TextEdit.toJson TextEdit.Representable where
  valid := by
    intro j e h
    unfold ofJson? at h
    split at h
    · simp only [Option.bind_eq_bind, Option.bind_eq_some_iff, Option.pure_def] at h
      obtain ⟨_, -, start, hstart, stop, hstop, _, -, hrecord⟩ := h
      cases hrecord
      exact ⟨Json.codec_nat.required.valid _ _ hstart, Json.codec_nat.required.valid _ _ hstop⟩
    · cases h
  reads := by
    rintro e ⟨hstart, hstop⟩
    rw [ofJson?, fields_toJson]
    simp [Path.codec.required.reads _ trivial, Json.codec_nat.required.reads _ hstart,
      Json.codec_nat.required.reads _ hstop, Json.codec_text.required.reads _ trivial]

/-- Where the edits are written. -/
theorem WorkspaceEdit.fields_toJson (w : WorkspaceEdit) :
    w.toJson.fields ["edits"] = some [some (Json.list TextEdit.toJson w.edits)] := rfl

/-- Edits are written in a list. -/
theorem WorkspaceEdit.codec : Codec WorkspaceEdit.ofJson? WorkspaceEdit.toJson
    fun w => ∀ e ∈ w.edits, e.Representable where
  valid := by
    intro j w h
    unfold ofJson? at h
    split at h
    · simp only [Option.bind_eq_bind, Option.bind_eq_some_iff, Option.pure_def] at h
      obtain ⟨edits, hedits, hrecord⟩ := h
      cases hrecord
      exact TextEdit.codec.list.required.valid _ _ hedits
    · cases h
  reads := by
    intro w hedits
    rw [ofJson?, fields_toJson]
    simp [TextEdit.codec.list.required.reads _ hedits]

/-- Where the fields of a request are written. -/
theorem RenameRequest.fields_toJson (r : RenameRequest) :
    r.toJson.fields ["symbol_id", "new_name"] =
      some [some r.symbolId.toJson, some (.text r.newName)] := rfl

/-- The new name of a request may be any text: it is judged later. -/
theorem RenameRequest.codec : Codec RenameRequest.ofJson? RenameRequest.toJson
    fun r => r.symbolId.WellFormed where
  valid := by
    intro j r h
    unfold ofJson? at h
    split at h
    · simp only [Option.bind_eq_bind, Option.bind_eq_some_iff, Option.pure_def] at h
      obtain ⟨symbolId, hsymbolId, _, -, hrecord⟩ := h
      cases hrecord
      exact SymbolId.codec.required.valid _ _ hsymbolId
    · cases h
  reads := by
    intro r hid
    rw [ofJson?, fields_toJson]
    simp [SymbolId.codec.required.reads _ hid, Json.codec_text.required.reads _ trivial]

/-- Where the fields of a conflict are written; what it does not say is left out. -/
theorem Conflict.fields_toJson (c : Conflict) :
    c.toJson.fields ["type", "message", "severity", "path"] =
      some [some (.text c.kind.name), some (.text c.message), c.severity.map fun s => .text s.name,
        c.path.map Path.toJson] := by
  obtain ⟨kind, message, severity, path⟩ := c
  cases severity <;> cases path <;> rfl

/-- Every conflict can be written. -/
theorem Conflict.codec : Codec Conflict.ofJson? Conflict.toJson fun _ => True where
  valid _ _ _ := trivial
  reads c _ := by
    rw [ofJson?, fields_toJson]
    simp [ConflictKind.codec.required.reads _ trivial, Json.codec_text.required.reads _ trivial,
      (Severity.codec.optionalField fun _ => nofun).reads c.severity fun _ _ => trivial,
      (Path.codec.optionalField fun _ => nofun).reads c.path fun _ _ => trivial]

/-- Where the fields of a dependent are written; a missing path is left out. -/
theorem Dependent.fields_toJson (d : Dependent) :
    d.toJson.fields ["symbol_id", "file_path"] =
      some [some d.symbolId.toJson, d.filePath.map Path.toJson] := by
  obtain ⟨symbolId, filePath⟩ := d
  cases filePath <;> rfl

/-- The symbol of a dependent is well formed, and its path may be missing. -/
theorem Dependent.codec : Codec Dependent.ofJson? Dependent.toJson
    fun d => d.symbolId.WellFormed where
  valid := by
    intro j d h
    unfold ofJson? at h
    split at h
    · simp only [Option.bind_eq_bind, Option.bind_eq_some_iff, Option.pure_def] at h
      obtain ⟨symbolId, hsymbolId, _, -, hrecord⟩ := h
      cases hrecord
      exact SymbolId.codec.required.valid _ _ hsymbolId
    · cases h
  reads := by
    intro d hid
    rw [ofJson?, fields_toJson]
    simp [SymbolId.codec.required.reads _ hid,
      (Path.codec.optionalField fun _ => nofun).reads d.filePath fun _ _ => trivial]

/-- Where the fields of a verdict are written; empty lists are written, too. -/
theorem EditVerdict.fields_toJson (v : EditVerdict) :
    v.toJson.fields ["valid", "errors", "warnings"] =
      some [some (.bool v.valid), some (Json.list .text v.errors),
        some (Json.list .text v.warnings)] := rfl

/-- A list of texts that may be left out is read back, whatever the texts are. -/
theorem Json.defaulted_texts (texts : List String) :
    Json.defaulted [] (Json.asList Json.asText) (some (Json.list .text texts)) = some texts :=
  (Json.codec_text.list.defaulted fun _ _ => trivial).reads texts fun _ _ => trivial

/-- Every verdict can be written. -/
theorem EditVerdict.codec : Codec EditVerdict.ofJson? EditVerdict.toJson fun _ => True where
  valid _ _ _ := trivial
  reads v _ := by
    rw [ofJson?, fields_toJson]
    simp [Json.codec_bool.required.reads _ trivial, Json.defaulted_texts]

/-- Where the fields of a patch are written; the payload stands there as it is. -/
theorem PatchRecord.fields_toJson (p : PatchRecord) :
    p.toJson.fields ["kind", "id", "source_text", "version", "payload"] =
      some [some (.text p.kind), some p.id.toJson, some (.text p.sourceText), some (.nat p.version),
        p.payload] := by
  obtain ⟨kind, id, sourceText, version, payload⟩ := p
  cases payload <;> rfl

/-- The payload of a patch is a document of its own: the members of its objects are in order, and
    it is not null. -/
structure PatchRecord.Representable (p : PatchRecord) : Prop where
  id : p.id.WellFormed
  version : Fits p.version
  payload : ∀ v ∈ p.payload, Json.normal? v = some v ∧ v ≠ .null

/-- A payload is read into its normal form, and this stays as it is. -/
theorem PatchRecord.codec :
    Codec PatchRecord.ofJson? PatchRecord.toJson PatchRecord.Representable where
  valid := by
    intro j p h
    unfold ofJson? at h
    split at h
    · simp only [Option.bind_eq_bind, Option.bind_eq_some_iff, Option.pure_def] at h
      obtain ⟨_, -, id, hid, _, -, version, hversion, payload, hpayload, hrecord⟩ := h
      cases hrecord
      exact ⟨SymbolId.codec.required.valid _ _ hid, Json.codec_nat.required.valid _ _ hversion,
        Json.codec_payload.valid _ _ hpayload⟩
    · cases h
  reads := by
    rintro p ⟨hid, hversion, hpayload⟩
    rw [ofJson?, fields_toJson]
    simp [Json.codec_text.required.reads _ trivial, SymbolId.codec.required.reads _ hid,
      Json.codec_nat.required.reads _ hversion, Json.codec_payload.reads _ hpayload]

/-- Where the fields of an entry are written; a missing path is left out. -/
theorem CascadeEntry.fields_toJson (c : CascadeEntry) :
    c.toJson.fields ["symbol_id", "distance", "reason", "file_path"] =
      some [some c.symbolId.toJson, some (.nat c.distance), some (.text c.reason),
        c.filePath.map Path.toJson] := by
  obtain ⟨symbolId, distance, reason, filePath⟩ := c
  cases filePath <;> rfl

/-- The distance of an entry fits, and its symbol is well formed. -/
theorem CascadeEntry.codec : Codec CascadeEntry.ofJson? CascadeEntry.toJson
    fun c => c.symbolId.WellFormed ∧ Fits c.distance where
  valid := by
    intro j c h
    unfold ofJson? at h
    split at h
    · simp only [Option.bind_eq_bind, Option.bind_eq_some_iff, Option.pure_def] at h
      obtain ⟨symbolId, hsymbolId, distance, hdistance, _, -, _, -, hrecord⟩ := h
      cases hrecord
      exact ⟨SymbolId.codec.required.valid _ _ hsymbolId,
        Json.codec_nat.required.valid _ _ hdistance⟩
    · cases h
  reads := by
    rintro c ⟨hid, hdistance⟩
    rw [ofJson?, fields_toJson]
    simp [SymbolId.codec.required.reads _ hid, Json.codec_nat.required.reads _ hdistance,
      Json.codec_text.required.reads _ trivial,
      (Path.codec.optionalField fun _ => nofun).reads c.filePath fun _ _ => trivial]

/-- All settings are written, also those that have their default. -/
theorem Config.fields_toJson (c : Config) :
    c.toJson.fields Config.fieldNames =
      some [some (.nat c.maxEditsPerFile), some (.bool c.deepValidation),
        some (Json.list .text c.extraReservedWords), some (.bool c.verifySyntax),
        some (.bool c.checkStrayOccurrences)] := rfl

/-- The defaults of all settings are among the values that are read back. -/
theorem Config.codec : Codec Config.ofJson? Config.toJson fun c => Fits c.maxEditsPerFile where
  valid := by
    intro j c h
    unfold ofJson? at h
    split at h
    · simp only [Option.bind_eq_bind, Option.bind_eq_some_iff, Option.pure_def] at h
      obtain ⟨maxEdits, hmaxEdits, _, -, _, -, _, -, _, -, hrecord⟩ := h
      cases hrecord
      exact (Json.codec_nat.defaulted (by decide)).valid _ _ hmaxEdits
    · cases h
  reads := by
    intro c hmaxEdits
    have hdefault : Fits ({} : Config).maxEditsPerFile := by decide
    rw [ofJson?, fields_toJson]
    simp [(Json.codec_nat.defaulted hdefault).reads _ hmaxEdits, Json.defaulted_texts,
      (Json.codec_bool.defaulted trivial).reads _ trivial]

/-- Where the fields of a binding are written; the global scope is null. -/
theorem ScopeBinding.fields_toJson (b : ScopeBinding) :
    b.toJson.fields ["name", "scope_id", "symbol_id"] =
      some [some (.text b.name), some (Json.orNull .text b.scope), some b.symbolId.toJson] := rfl

/-- A binding is written with its scope, or with null for the global one. -/
theorem ScopeBinding.codec : Codec ScopeBinding.ofJson? ScopeBinding.toJson
    fun b => b.symbolId.WellFormed where
  valid := by
    intro j b h
    unfold ofJson? at h
    split at h
    · simp only [Option.bind_eq_bind, Option.bind_eq_some_iff, Option.pure_def] at h
      obtain ⟨_, -, _, -, symbolId, hsymbolId, hrecord⟩ := h
      cases hrecord
      exact SymbolId.codec.required.valid _ _ hsymbolId
    · cases h
  reads := by
    intro b hid
    rw [ofJson?, fields_toJson]
    simp [Json.codec_text.required.reads _ trivial, SymbolId.codec.required.reads _ hid,
      (Json.codec_text.orNull fun _ => nofun).reads b.scope fun _ _ => trivial]

/-! ## Syntax trees -/

/-- A document has some height. -/
theorem Json.depth_pos (j : Json) : 0 < j.depth := by
  cases j <;> simp [depth]

/-- The items of an array are no higher than their list. -/
theorem Json.depth_le_depthItems {j : Json} {js : List Json} (h : j ∈ js) :
    j.depth ≤ depthItems js := by
  induction js with
  | nil => cases h
  | cons j' js ih =>
    rw [depthItems]
    rcases List.mem_cons.mp h with rfl | h
    · exact Nat.le_max_left _ _
    · exact Nat.le_trans (ih h) (Nat.le_max_right _ _)

namespace SyntaxNode

/-- Children are written one by one. -/
theorem toJsonList_eq_map (ns : List SyntaxNode) : toJsonList ns = ns.map toJson := by
  induction ns with
  | nil => rfl
  | cons n ns ih => rw [toJsonList, ih, List.map_cons]

/-- Where the fields of a node are written; the children are always listed. -/
theorem fields_toJson (start stop : Nat) (children : List SyntaxNode) (symbol : Option SymbolId) :
    (node start stop children symbol).toJson.fields ["start", "end", "children", "symbol_id"] =
      some [some (.nat start), some (.nat stop), some (Json.list toJson children),
        symbol.map SymbolId.toJson] := by
  rw [Json.list, ← toJsonList_eq_map]
  cases symbol <;> rfl

/-- A child is written in a smaller document than its parent. -/
theorem depth_child_lt (start stop : Nat) {children : List SyntaxNode} (symbol : Option SymbolId)
    {child : SyntaxNode} (h : child ∈ children) :
    child.toJson.depth < (node start stop children symbol).toJson.depth := by
  have hitems : child.toJson.depth ≤ Json.depthItems (toJsonList children) := by
    rw [toJsonList_eq_map]
    exact Json.depth_le_depthItems (List.mem_map_of_mem h)
  cases symbol <;>
    simp [toJson, Json.record, Json.depth, Json.depthMembers, Json.optional] <;> omega

/-- The offsets of all nodes fit, and their symbols are well formed. -/
inductive Representable : SyntaxNode → Prop
  | node {start stop : Nat} {children : List SyntaxNode} {symbol : Option SymbolId}
    (hstart : Fits start) (hstop : Fits stop)
    (hchildren : ∀ child ∈ children, child.Representable)
    (hsymbol : ∀ id ∈ symbol, id.WellFormed) :
    Representable (.node start stop children symbol)

/-- The symbol of a node may be left out. -/
theorem codec_symbol : Codec (Json.optionalField SymbolId.ofJson?) (Option.map SymbolId.toJson)
    fun symbol => ∀ id ∈ symbol, id.WellFormed :=
  SymbolId.codec.optionalField fun _ => nofun

/-- Every tree that is read is representable. -/
theorem representable_of_ofJsonWithin {height : Nat} {j : Json} {n : SyntaxNode}
    (h : ofJsonWithin height j = some n) : n.Representable := by
  induction height generalizing j n with
  | zero => cases h
  | succ height ih =>
    unfold ofJsonWithin at h
    split at h
    · simp only [Option.bind_eq_bind, Option.bind_eq_some_iff, Option.pure_def] at h
      obtain ⟨start, hstart, stop, hstop, children, hchildren, symbol, hsymbol, hn⟩ := h
      cases hn
      refine .node (Json.codec_nat.required.valid _ _ hstart)
        (Json.codec_nat.required.valid _ _ hstop) (fun child hchild => ?_)
        (codec_symbol.valid _ _ hsymbol)
      -- A child was read from some item, within a height that is smaller by one.
      obtain ⟨item, hitem⟩ := Json.exists_of_defaulted hchildren hchild
      exact ih hitem
    · cases h

/-- A tree is read from what is written, within any height that suffices for what is written. -/
theorem ofJsonWithin_toJson {height : Nat} {n : SyntaxNode} (h : n.Representable)
    (hle : n.toJson.depth ≤ height) : ofJsonWithin height n.toJson = some n := by
  induction height generalizing n with
  | zero => exact absurd hle (Nat.not_le.mpr (Json.depth_pos _))
  | succ height ih =>
    obtain @⟨start, stop, children, symbol, hstart, hstop, hchildren, hsymbol⟩ := h
    -- The children are read within what is left of the height.
    have hlist : Json.asList (ofJsonWithin height) (Json.list toJson children) =
        some children := by
      refine Json.asList_list fun child hchild => ?_
      have hlt := depth_child_lt start stop symbol hchild
      exact ih (hchildren child hchild) (by omega)
    rw [ofJsonWithin, fields_toJson]
    simp [Json.codec_nat.required.reads _ hstart, Json.codec_nat.required.reads _ hstop,
      Json.defaulted, hlist, codec_symbol.reads _ hsymbol]

/-- The height of the document itself suffices for reading it. -/
theorem codec : Codec ofJson? toJson Representable where
  valid _ _ h := representable_of_ofJsonWithin h
  reads _ h := ofJsonWithin_toJson h (Nat.le_refl _)

end SyntaxNode

/-! ## Manifests -/

namespace Manifest

variable {α : Type} {read : Json → Option α} {write : α → Json} {Valid : α → Prop}

/-- Tables keyed by texts are those in ascending order. -/
theorem textTable?_codec (h : Codec read write Valid) :
    Codec (textTable? read) (fun table => .record (table.map fun e => (e.1, Json.list write e.2)))
      fun table => Json.Ascending table ∧ ∀ e ∈ table, ∀ a ∈ e.2, Valid a where
  valid := by
    intro j table htable
    obtain ⟨entries, hentries, rfl⟩ := Option.map_eq_some_iff.mp htable
    refine ⟨Json.textTable_ascending entries, fun e he => ?_⟩
    -- The entries of the table are among those that were read.
    obtain ⟨item, hitem⟩ := Json.exists_of_asEntries hentries (Json.mem_of_mem_textTable he)
    exact h.list.valid item e.2 hitem
  reads := by
    rintro table ⟨hascending, hvalid⟩
    have hlists : ∀ e ∈ table, Json.asList read (Json.list write e.2) = some e.2 :=
      fun e he => h.list.reads e.2 (hvalid e he)
    rw [textTable?, Json.asEntries_record hlists, Option.map_some,
      Json.textTable_of_ascending hascending]

/-- A table keyed by paths is written with the spellings of its keys. -/
theorem pathTable?_codec (h : Codec read write Valid) :
    Codec (pathTable? read)
      (fun table => .record (table.map fun e => (e.1.text, Json.list write e.2)))
      fun table => ((table.map Prod.fst).Pairwise fun p q => p.cmp q = .lt) ∧
        ∀ e ∈ table, ∀ a ∈ e.2, Valid a where
  valid := by
    intro j table htable
    obtain ⟨entries, hentries, rfl⟩ := Option.map_eq_some_iff.mp htable
    refine ⟨Path.table_pairwise _, fun ⟨path, values⟩ he => ?_⟩
    -- A key may be spelled as in one entry and have the list of another.
    obtain ⟨q, hq⟩ := Path.exists_of_mem_table he
    obtain ⟨entry, hentry, heq⟩ := List.mem_map.mp hq
    cases heq
    obtain ⟨item, hitem⟩ := Json.exists_of_asEntries hentries hentry
    exact h.list.valid item entry.2 hitem
  reads := by
    rintro table ⟨hascending, hvalid⟩
    have hlists : ∀ e ∈ table.map (fun e => (e.1.text, e.2)),
        Json.asList read (Json.list write e.2) = some e.2 := by
      intro e he
      obtain ⟨entry, hentry, rfl⟩ := List.mem_map.mp he
      exact h.list.reads entry.2 (hvalid entry hentry)
    have hread := Json.asEntries_record hlists
    rw [List.map_map, Function.comp_def] at hread
    have hpaths : (table.map fun e => (e.1.text, e.2)).map (fun e => ((⟨e.1⟩ : Path), e.2)) =
        table := by
      rw [List.map_map]
      exact List.map_id _
    show ((Json.record (table.map _)).asEntries _).map _ = some table
    rw [hread, Option.map_some, hpaths, Path.table_of_ascending hascending]

/-- A table that may be left out is empty then. -/
theorem textTable?_field (h : Codec read write Valid) :
    Codec (Json.defaulted [] (textTable? read))
      (fun table => some (.record (table.map fun e => (e.1, Json.list write e.2))))
      fun table => Json.Ascending table ∧ ∀ e ∈ table, ∀ a ∈ e.2, Valid a :=
  (textTable?_codec h).defaulted ⟨.nil, nofun⟩

/-- So is a table keyed by paths. -/
theorem pathTable?_field (h : Codec read write Valid) :
    Codec (Json.defaulted [] (pathTable? read))
      (fun table => some (.record (table.map fun e => (e.1.text, Json.list write e.2))))
      fun table => ((table.map Prod.fst).Pairwise fun p q => p.cmp q = .lt) ∧
        ∀ e ∈ table, ∀ a ∈ e.2, Valid a :=
  (pathTable?_codec h).defaulted ⟨.nil, nofun⟩

/-- Where the parts of a manifest are written. -/
theorem fields_toJson (m : Manifest) :
    m.toJson.fields
        ["symbols", "occurrences", "bindings", "dependents", "reserved_words", "file_symbols"] =
      some [some (Json.list SymbolId.toJson m.symbols),
        some (.record (m.occurrences.map fun e => (e.1, Json.list Occurrence.toJson e.2))),
        some (Json.list ScopeBinding.toJson m.bindings),
        some (.record (m.dependents.map fun e => (e.1, Json.list Dependent.toJson e.2))),
        some (Json.list .text m.reservedWords),
        some (.record (m.fileSymbols.map fun e => (e.1.text, Json.list SymbolId.toJson e.2)))] :=
  rfl

/-- Tables are in order, and all that they list is representable. The keys of the tables need not be
    identifiers: they are read as such when the manifest is indexed. -/
structure Representable (m : Manifest) : Prop where
  symbols : ∀ id ∈ m.symbols, id.WellFormed
  occurrences : Json.Ascending m.occurrences ∧ ∀ e ∈ m.occurrences, ∀ o ∈ e.2, o.Representable
  bindings : ∀ b ∈ m.bindings, b.symbolId.WellFormed
  dependents : Json.Ascending m.dependents ∧
    ∀ e ∈ m.dependents, ∀ d ∈ e.2, d.symbolId.WellFormed
  fileSymbols : ((m.fileSymbols.map Prod.fst).Pairwise fun p q => p.cmp q = .lt) ∧
    ∀ e ∈ m.fileSymbols, ∀ id ∈ e.2, id.WellFormed

/-- The parts of a manifest are read one by one, each with its default. -/
theorem codec : Codec ofJson? toJson Representable where
  valid := by
    intro j m h
    unfold ofJson? at h
    split at h
    · simp only [Option.bind_eq_bind, Option.bind_eq_some_iff, Option.pure_def] at h
      obtain ⟨symbols, hsymbols, occurrences, hoccurrences, bindings, hbindings, dependents,
        hdependents, _, -, fileSymbols, hfileSymbols, hrecord⟩ := h
      cases hrecord
      exact {
        symbols := (SymbolId.codec.list.defaulted (List.forall_mem_nil _)).valid _ _ hsymbols
        occurrences := (textTable?_field Occurrence.codec).valid _ _ hoccurrences
        bindings := (ScopeBinding.codec.list.defaulted (List.forall_mem_nil _)).valid _ _ hbindings
        dependents := (textTable?_field Dependent.codec).valid _ _ hdependents
        fileSymbols := (pathTable?_field SymbolId.codec).valid _ _ hfileSymbols }
    · cases h
  reads := by
    intro m h
    rw [ofJson?, fields_toJson]
    simp only [(SymbolId.codec.list.defaulted (List.forall_mem_nil _)).reads _ h.symbols,
      (textTable?_field Occurrence.codec).reads _ h.occurrences,
      (ScopeBinding.codec.list.defaulted (List.forall_mem_nil _)).reads _ h.bindings,
      (textTable?_field Dependent.codec).reads _ h.dependents, Json.defaulted_texts,
      (pathTable?_field SymbolId.codec).reads _ h.fileSymbols]
    rfl

end Manifest

/-! ## All documents -/

/-- Whatever document a value was read from, the value is read from its own document. So is every
    value whose numbers fit, whose identifiers are well formed and whose tables are in order. -/
theorem documents_read_back :
    Codec SymbolId.ofJson? SymbolId.toJson SymbolId.WellFormed ∧
      Codec SymbolKind.ofJson? SymbolKind.toJson (fun _ => True) ∧
      Codec Occurrence.ofJson? Occurrence.toJson Occurrence.Representable ∧
      Codec Span.ofJson? Span.toJson Span.Representable ∧
      Codec TextEdit.ofJson? TextEdit.toJson TextEdit.Representable ∧
      Codec WorkspaceEdit.ofJson? WorkspaceEdit.toJson (fun w => ∀ e ∈ w.edits, e.Representable) ∧
      Codec RenameRequest.ofJson? RenameRequest.toJson (fun r => r.symbolId.WellFormed) ∧
      Codec Conflict.ofJson? Conflict.toJson (fun _ => True) ∧
      Codec Dependent.ofJson? Dependent.toJson (fun d => d.symbolId.WellFormed) ∧
      Codec EditVerdict.ofJson? EditVerdict.toJson (fun _ => True) ∧
      Codec SyntaxNode.ofJson? SyntaxNode.toJson SyntaxNode.Representable ∧
      Codec PatchRecord.ofJson? PatchRecord.toJson PatchRecord.Representable ∧
      Codec CascadeEntry.ofJson? CascadeEntry.toJson
        (fun c => c.symbolId.WellFormed ∧ Fits c.distance) ∧
      Codec Config.ofJson? Config.toJson (fun c => Fits c.maxEditsPerFile) ∧
      Codec Manifest.ofJson? Manifest.toJson Manifest.Representable :=
  ⟨SymbolId.codec, SymbolKind.codec, Occurrence.codec, Span.codec, TextEdit.codec,
    WorkspaceEdit.codec, RenameRequest.codec, Conflict.codec, Dependent.codec, EditVerdict.codec,
    SyntaxNode.codec, PatchRecord.codec, CascadeEntry.codec, Config.codec, Manifest.codec⟩

/-- Occurrences with a key given twice, one of them written as an array. -/
def looseOccurrences : Json :=
  .record
    [("p/var/a", .array [.record
        [("kind", .text "reference"), ("path", .text "f.gml"), ("start", .nat 1), ("end", .nat 2),
          ("scope_id", .null)]]),
      ("p/var/b", .array []),
      ("p/var/b", .array [.array
        [.text "f.gml", .nat 4, .nat 5, .text "scope", .text "definition"]])]

/-- The symbols of a file under two spellings. -/
def looseFileSymbols : Json :=
  .record [("d/f.gml", .array [.text "p/var/a"]), ("d//f.gml", .array [.text "p/var/b"])]

/-- A manifest with these parts and a member that manifests do not have. -/
def looseManifest : Json :=
  .record
    [("comment", .void), ("file_symbols", looseFileSymbols), ("occurrences", looseOccurrences)]

/-- What it says. -/
def looseManifestValue : Manifest where
  symbols := []
  occurrences :=
    [("p/var/a", [⟨⟨"f.gml"⟩, 1, 2, none, .reference⟩]),
      ("p/var/b", [⟨⟨"f.gml"⟩, 4, 5, some "scope", .definition⟩])]
  bindings := []
  dependents := []
  reservedWords := []
  fileSymbols := [(⟨"d/f.gml"⟩, [⟨["p", "var"], "b"⟩])]

/-- Of the two lists under one key the last one counts. -/
theorem textTable?_looseOccurrences :
    Manifest.textTable? Occurrence.ofJson? looseOccurrences =
      some looseManifestValue.occurrences := by
  have hentries : looseOccurrences.asEntries (Json.asList Occurrence.ofJson?) =
      some [("p/var/a", [⟨⟨"f.gml"⟩, 1, 2, none, .reference⟩]), ("p/var/b", []),
        ("p/var/b", [⟨⟨"f.gml"⟩, 4, 5, some "scope", .definition⟩])] := rfl
  rw [Manifest.textTable?, hentries, Option.map_some, Json.textTable_of_sorted (by decide +kernel)]
  decide +kernel

/-- The first spelling of the path is kept, with the last of the lists. -/
theorem pathTable?_looseFileSymbols :
    Manifest.pathTable? SymbolId.ofJson? looseFileSymbols =
      some looseManifestValue.fileSymbols := by
  have hentries : looseFileSymbols.asEntries (Json.asList SymbolId.ofJson?) =
      some [("d/f.gml", [⟨["p", "var"], "a"⟩]), ("d//f.gml", [⟨["p", "var"], "b"⟩])] := by
    decide +kernel
  have hfirst : Path.firstSpellings [⟨"d/f.gml"⟩, ⟨"d//f.gml"⟩] = [⟨"d/f.gml"⟩] := by
    decide +kernel
  rw [Manifest.pathTable?, hentries, Option.map_some, Path.table, Path.keys]
  simp only [List.map_cons, List.map_nil, hfirst, Path.sort, List.mergeSort_singleton]
  decide +kernel

/-- The manifest is read; the missing parts are empty. -/
theorem ofJson?_looseManifest : Manifest.ofJson? looseManifest = some looseManifestValue := by
  have hfields : looseManifest.fields
      ["symbols", "occurrences", "bindings", "dependents", "reserved_words", "file_symbols"] =
        some [none, some looseOccurrences, none, none, none, some looseFileSymbols] := rfl
  rw [Manifest.ofJson?, hfields]
  simp only [Json.defaulted, textTable?_looseOccurrences, pathTable?_looseFileSymbols]
  rfl

/-- A tree as an array, around one whose children are left out. -/
def looseTree : Json :=
  .array [.nat 0, .nat 9, .array [.record [("end", .nat 4), ("start", .nat 2)]]]

/-- A patch whose payload gives a member twice. -/
def loosePatch : Json :=
  .record
    [("payload", .record [("a", .null), ("a", .bool true)]), ("kind", .text "script"),
      ("id", .text "p/script/s"), ("source_text", .text "x"), ("version", .nat 3)]

/-- What it says. -/
def loosePatchValue : PatchRecord where
  kind := "script"
  id := ⟨["p", "script"], "s"⟩
  sourceText := "x"
  version := 3
  payload := some (.record [("a", .bool true)])

/-- The patch is read; the last of the two members counts. -/
theorem ofJson?_loosePatch : PatchRecord.ofJson? loosePatch = some loosePatchValue := by
  -- Of a name that is given twice the last value counts.
  have hpayload : Json.textTable [("a", Json.null), ("a", .bool true)] = [("a", .bool true)] := by
    rw [Json.textTable_of_sorted (by decide +kernel)]
    rfl
  have hnormal : Json.normal? (.record [("a", .null), ("a", .bool true)]) =
      some (.record [("a", .bool true)]) := congrArg (fun ms => some (Json.record ms)) hpayload
  have hfields : loosePatch.fields ["kind", "id", "source_text", "version", "payload"] =
      some [some (.text "script"), some (.text "p/script/s"), some (.text "x"), some (.nat 3),
        some (.record [("a", .null), ("a", .bool true)])] := rfl
  have hid : SymbolId.ofJson? (.text "p/script/s") = some ⟨["p", "script"], "s"⟩ := by
    decide +kernel
  have hfield : Json.optionalField Json.normal?
      (some (.record [("a", .null), ("a", .bool true)])) =
        some (some (.record [("a", .bool true)])) :=
    Json.asOptional_of_ne_null (by simp [Json.record]) hnormal
  rw [PatchRecord.ofJson?, hfields]
  simp only [Json.required, hid, hfield]
  rfl

open Json (ReadsAs)

/-- A document of each type, none of them in the form in which its value is written. -/
theorem documents_read_back_loose :
    ReadsAs SymbolId.ofJson? SymbolId.toJson (.text "p/var/a") ⟨["p", "var"], "a"⟩ ∧
      ReadsAs SymbolKind.ofJson? SymbolKind.toJson
        (.record [("detail", .record [("instance", .record [])]), ("kind", .text "variable")])
        (.var .owned) ∧
      ReadsAs Occurrence.ofJson? Occurrence.toJson
        (.array [.text "f.gml", .nat 4, .nat 5, .null, .text "definition"])
        ⟨⟨"f.gml"⟩, 4, 5, none, .definition⟩ ∧
      ReadsAs Span.ofJson? Span.toJson
        (.record [("end", .nat 4), ("comment", .void), ("start", .nat 2)]) ⟨2, 4⟩ ∧
      ReadsAs TextEdit.ofJson? TextEdit.toJson
        (.array [.text "f.gml", .nat 0, .nat 1, .text "b"]) ⟨⟨"f.gml"⟩, 0, 1, "b"⟩ ∧
      ReadsAs WorkspaceEdit.ofJson? WorkspaceEdit.toJson
        (.array [.array [.array [.text "f.gml", .nat 0, .nat 1, .text "b"]]])
        ⟨[⟨⟨"f.gml"⟩, 0, 1, "b"⟩]⟩ ∧
      ReadsAs RenameRequest.ofJson? RenameRequest.toJson
        (.record [("new_name", .text "b"), ("symbol_id", .text "p/var/a")])
        ⟨⟨["p", "var"], "a"⟩, "b"⟩ ∧
      ReadsAs Conflict.ofJson? Conflict.toJson
        (.record [("severity", .null), ("message", .text "m"),
          ("type", .record [("reserved", .null)])]) ⟨.reserved, "m", none, none⟩ ∧
      ReadsAs Dependent.ofJson? Dependent.toJson (.array [.text "p/var/a"])
        ⟨⟨["p", "var"], "a"⟩, none⟩ ∧
      ReadsAs EditVerdict.ofJson? EditVerdict.toJson (.array [.bool true]) ⟨true, [], []⟩ ∧
      ReadsAs SyntaxNode.ofJson? SyntaxNode.toJson looseTree
        (.node 0 9 [.node 2 4 [] none] none) ∧
      ReadsAs PatchRecord.ofJson? PatchRecord.toJson loosePatch loosePatchValue ∧
      ReadsAs CascadeEntry.ofJson? CascadeEntry.toJson
        (.array [.text "p/var/a", .nat 1, .text "uses it"])
        ⟨⟨["p", "var"], "a"⟩, 1, "uses it", none⟩ ∧
      ReadsAs Config.ofJson? Config.toJson (.record []) {} ∧
      ReadsAs Manifest.ofJson? Manifest.toJson looseManifest looseManifestValue := by
  obtain ⟨hid, hkind, hoccurrence, hspan, htext, hedit, hrequest, hconflict, hdependent, hverdict,
    htree, hpatch, hcascade, hconfig, hmanifest⟩ := documents_read_back
  exact ⟨hid.readsAs (by decide +kernel), hkind.readsAs rfl, hoccurrence.readsAs rfl,
    hspan.readsAs rfl, htext.readsAs rfl, hedit.readsAs rfl, hrequest.readsAs (by decide +kernel),
    hconflict.readsAs rfl, hdependent.readsAs (by decide +kernel), hverdict.readsAs rfl,
    htree.readsAs rfl, hpatch.readsAs ofJson?_loosePatch, hcascade.readsAs (by decide +kernel),
    hconfig.readsAs rfl, hmanifest.readsAs ofJson?_looseManifest⟩

end HotRename
