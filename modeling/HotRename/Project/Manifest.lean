import HotRename.Collaborator.Analyzer
import HotRename.Json.Reader
import HotRename.Path.Basic
import HotRename.Store.Basic

/-!
# Project manifests

A manifest is a document that lists what is known about a project: its symbols, where they occur,
what names mean in which scope, which symbols depend on which, and which files define them. An
index of a manifest answers as an analyzer; it has every capability but the verdict on edits.
-/

namespace HotRename

/-- What a name means in a scope. -/
structure ScopeBinding where
  name : String
  /-- The scope, `none` for the global one. -/
  scope : Option String
  symbolId : SymbolId
  deriving DecidableEq, Repr

namespace ScopeBinding

/-- Writes a binding. -/
def toJson (b : ScopeBinding) : Json :=
  .record
    [("name", .text b.name), ("scope_id", Json.orNull .text b.scope),
      ("symbol_id", b.symbolId.toJson)]

/-- Reads a binding. -/
def ofJson? (j : Json) : Option ScopeBinding :=
  match j.fields ["name", "scope_id", "symbol_id"] with
  | some [name, scope, symbolId] => do
    return {
      name := ← Json.required Json.asText name
      scope := ← Json.optionalField Json.asText scope
      symbolId := ← Json.required SymbolId.ofJson? symbolId }
  | _ => none

end ScopeBinding

/-- A manifest. Tables list their keys in ascending order. -/
structure Manifest where
  symbols : List SymbolId
  /-- Occurrences by the text of the symbol. -/
  occurrences : List (String × List Occurrence)
  bindings : List ScopeBinding
  /-- Dependents by the text of the symbol that they depend on. -/
  dependents : List (String × List Dependent)
  reservedWords : List String
  fileSymbols : List (Path × List SymbolId)
  deriving DecidableEq, Repr

namespace Manifest

/-- Writes a manifest. -/
def toJson (m : Manifest) : Json :=
  .record
    [("symbols", Json.list SymbolId.toJson m.symbols),
      ("occurrences",
        .record (m.occurrences.map fun e => (e.1, Json.list Occurrence.toJson e.2))),
      ("bindings", Json.list ScopeBinding.toJson m.bindings),
      ("dependents", .record (m.dependents.map fun e => (e.1, Json.list Dependent.toJson e.2))),
      ("reserved_words", Json.list .text m.reservedWords),
      ("file_symbols",
        .record (m.fileSymbols.map fun e => (e.1.text, Json.list SymbolId.toJson e.2)))]

/-- Reads a table keyed by texts. -/
def textTable? (f : Json → Option α) (j : Json) : Option (List (String × List α)) :=
  (j.asEntries (Json.asList f)).map Json.textTable

/-- Reads a table keyed by paths. -/
def pathTable? (f : Json → Option α) (j : Json) : Option (List (Path × List α)) :=
  (j.asEntries (Json.asList f)).map fun entries =>
    -- Keys that spell one path are one key of the table.
    Path.table (entries.map fun e => (⟨e.1⟩, e.2))

/-- Reads a manifest; every part may be left out. -/
def ofJson? (j : Json) : Option Manifest :=
  match j.fields
      ["symbols", "occurrences", "bindings", "dependents", "reserved_words", "file_symbols"] with
  | some [symbols, occurrences, bindings, dependents, reservedWords, fileSymbols] => do
    return {
      symbols := ← Json.defaulted [] (Json.asList SymbolId.ofJson?) symbols
      occurrences := ← Json.defaulted [] (textTable? Occurrence.ofJson?) occurrences
      bindings := ← Json.defaulted [] (Json.asList ScopeBinding.ofJson?) bindings
      dependents := ← Json.defaulted [] (textTable? Dependent.ofJson?) dependents
      reservedWords := ← Json.defaulted [] (Json.asList Json.asText) reservedWords
      fileSymbols := ← Json.defaulted [] (pathTable? SymbolId.ofJson?) fileSymbols }
  | _ => none

end Manifest

/-- Why a manifest could not be used. -/
inductive ManifestError where
  | unreadable (path : Path) (fault : IoFault)
  | malformed
  | badSymbolId (id : String) (error : SymbolIdError)
  deriving DecidableEq, Repr

namespace ManifestError

/-- The wordings of the error and of those that led to it. What is wrong with a malformed text is
    not said. -/
def chain : ManifestError → List String
  | unreadable path fault =>
    [s!"cannot read manifest {path.text}: {fault.message}", fault.message]
  | malformed => []
  | badSymbolId id error => [s!"bad symbol id '{id}' in manifest: {error.message}", error.message]

/-- The error in words. -/
def message (e : ManifestError) : String :=
  e.chain.headD "malformed manifest"

end ManifestError

/-- A manifest whose keys were read as symbols. -/
structure ManifestIndex where
  /-- Every known symbol once. -/
  symbols : List SymbolId
  occurrences : List (SymbolId × List Occurrence)
  /-- What each name means in each scope in which it is bound. -/
  bindings : List ((String × Option String) × SymbolId)
  dependents : List (SymbolId × List Dependent)
  reservedWords : List String
  fileSymbols : List (Path × List SymbolId)

namespace ManifestIndex

/-- The table with one more entry, in the place of the entry that has the same key. -/
def store [DecidableEq κ] (entry : κ × ν) : List (κ × ν) → List (κ × ν)
  | [] => [entry]
  | old :: rest => if old.1 = entry.1 then entry :: rest else old :: store entry rest

/-- The table that results from storing the entries one after the other. -/
def table [DecidableEq κ] (entries : List (κ × ν)) : List (κ × ν) :=
  entries.foldl (fun stored entry => store entry stored) []

/-- Reads the keys of a table as symbols. -/
def readKeys : List (String × α) → Except ManifestError (List (SymbolId × α))
  | [] => .ok []
  | (key, value) :: rest => do
    let id ← (SymbolId.parse key).mapError (.badSymbolId key)
    return (id, value) :: (← readKeys rest)

/-- The index of a manifest. -/
def ofManifest (m : Manifest) : Except ManifestError ManifestIndex := do
  -- The keys of the occurrences are read first, so of two bad keys one of theirs is reported.
  let occurrences := table (← readKeys m.occurrences)
  let dependents := table (← readKeys m.dependents)
  return {
    -- What occurs exists, whether or not it is listed as a symbol.
    symbols := (m.symbols ++ occurrences.map Prod.fst).eraseDups
    occurrences
    bindings := table (m.bindings.map fun b => ((b.name, b.scope), b.symbolId))
    dependents
    reservedWords := m.reservedWords
    fileSymbols := m.fileSymbols }

/-- The index of the manifest with the given text. -/
def parse (text : String) : Except ManifestError ManifestIndex :=
  match (Json.parse text).bind Manifest.ofJson? with
  | some manifest => ofManifest manifest
  | none => .error .malformed

/-- The index that the result of reading a manifest file gives. -/
def load (path : Path) : Except IoFault String → Except ManifestError ManifestIndex
  | .ok text => parse text
  | .error fault => .error (.unreadable path fault)

/-- Number of known symbols. -/
def symbolCount (m : ManifestIndex) : Nat :=
  m.symbols.length

/-- What a name is bound to in a scope. -/
def binding? (m : ManifestIndex) (name : String) (scope : Option String) : Option SymbolId :=
  m.bindings.lookup (name, scope)

/-- What a name means in a scope; a name that is not bound there is looked up globally. -/
def lookup (m : ManifestIndex) (name : String) (scope : Option String) : Option SymbolId :=
  -- Scopes have no scopes around them but the global one.
  (scope.bind fun s => m.binding? name (some s)).or (m.binding? name none)

/-- The dependents of the given symbols, in the order of the symbols. -/
def dependentsOf (m : ManifestIndex) (ids : List SymbolId) : List Dependent :=
  ids.flatMap fun id => (m.dependents.lookup id).getD []

/-- A symbol with an occurrence at an offset of a file. Where several symbols have one, a table
    whose keys are in no order may give any of them; this one gives the symbol with the first
    key. -/
def symbolAt (m : ManifestIndex) (path : Path) (offset : Nat) : Option SymbolId :=
  (m.occurrences.find? fun entry => entry.2.any fun o =>
    path.same o.path && o.start ≤ offset && offset < o.stop).map Prod.fst

/-- The tables of a manifest lead to finitely many symbols. -/
theorem finite (m : ManifestIndex) (roots : List SymbolId) :
    FiniteReach (dependentIds fun ids => .ok (m.dependentsOf ids)) roots := by
  refine .of_forall_mem roots
    ((m.dependents.flatMap Prod.snd).map Dependent.symbolId) fun a b hb => ?_
  simp only [dependentIds, dependentsOf, List.flatMap_cons, List.flatMap_nil, List.append_nil] at hb
  obtain ⟨d, hd, rfl⟩ := List.mem_map.mp hb
  refine List.mem_map.mpr ⟨d, ?_, rfl⟩
  -- A symbol without a row has no dependents; the others are found in the row of their symbol.
  cases hl : m.dependents.lookup a with
  | none => simp [hl] at hd
  | some found =>
    rw [hl] at hd
    obtain ⟨l₁, l₂, hsplit, _⟩ := List.lookup_eq_some_iff.mp hl
    rw [hsplit]
    simp only [List.flatMap_append, List.flatMap_cons, List.mem_append]
    exact .inr (.inl hd)

/-- The analyzer that answers from the index. -/
def analyzer (m : ManifestIndex) : Analyzer where
  hasSymbol id := .ok (m.symbols.contains id)
  occurrences id := .ok ((m.occurrences.lookup id).getD [])
  lookup name scope := .ok (m.lookup name scope)
  reservedKeywords := .ok m.reservedWords
  validateEdits _ := .error (.unsupported .validateEdits)
  fileSymbols path := .ok ((Path.find? path m.fileSymbols).getD [])
  dependents ids := .ok (m.dependentsOf ids)
  symbolAt path offset := .ok (m.symbolAt path offset)
  finite := m.finite

end ManifestIndex
end HotRename
