import HotRename.Rename.Safety

/-!
# What a rename would do

The impact of a rename is found out without planning it. What would make planning fail is listed
as a conflict or a warning.
-/

namespace HotRename

/-- The numbers behind an impact. -/
structure ImpactSummary where
  totalOccurrences : Nat := 0
  definitions : Nat := 0
  references : Nat := 0
  affectedFiles : List Path := []
  /-- Number of symbols that depend on the symbol directly. -/
  dependentSymbols : Nat := 0
  deriving DecidableEq, Repr

/-- What a rename would do. -/
structure RenameImpact where
  symbolId : SymbolId
  oldName : String
  newName : String
  kind : SymbolKind
  /-- The rename can be planned. -/
  valid : Bool
  conflicts : List Conflict
  summary : ImpactSummary
  warnings : List String
  /-- Whether a running program can take over the rename, if it can be planned. -/
  hotReload : Option Safety
  deriving DecidableEq, Repr

/-- Writes the numbers. -/
def ImpactSummary.toJson (s : ImpactSummary) : Json :=
  .record
    [("total_occurrences", .nat s.totalOccurrences), ("definitions", .nat s.definitions),
      ("references", .nat s.references), ("affected_files", Json.list Path.toJson s.affectedFiles),
      ("dependent_symbols", .nat s.dependentSymbols)]

/-- Writes an impact. -/
def RenameImpact.toJson (i : RenameImpact) : Json :=
  .record
    ([("symbol_id", i.symbolId.toJson), ("old_name", .text i.oldName),
        ("new_name", .text i.newName), ("kind", i.kind.toJson), ("valid", .bool i.valid),
        ("conflicts", Json.list Conflict.toJson i.conflicts), ("summary", i.summary.toJson),
        ("warnings", Json.list .text i.warnings)] ++
      Json.optional "hot_reload" Safety.toJson i.hotReload)

namespace Impact

/-- More occurrences than this make a rename large. -/
def largeRename : Nat := 50

/-- More dependents than this are worth a warning. -/
def manyDependents : Nat := 10

/-- The numbers for given occurrences and dependents. -/
def summarize (occurrences : List Occurrence) (dependents : List Dependent) : ImpactSummary :=
  let definitions := occurrences.countP Occurrence.isDefinition
  { totalOccurrences := occurrences.length
    definitions
    references := occurrences.length - definitions
    affectedFiles := Path.set (occurrences.map Occurrence.path)
    -- A symbol may depend in several files and counts once.
    dependentSymbols := (dependents.map Dependent.symbolId).eraseDups.length }

/-- Warnings about the size of a rename and about its kind. -/
def advisories (kind : SymbolKind) (s : ImpactSummary) : List String :=
  (if largeRename < s.totalOccurrences then
    [s!"large rename: {s.totalOccurrences} occurrences across {s.affectedFiles.length} files"]
  else []) ++
  (if manyDependents < s.dependentSymbols then
    [s!"{s.dependentSymbols} dependent symbols will need to reload"]
  else []) ++
  match kind with
  | .var .global => ["renaming a global variable affects every script that reads it"]
  | .macroConstant => ["renaming a macro requires recompiling every use site"]
  | .enumeration => ["renaming an enum requires recompiling every use site"]
  | _ => []

/-- The conflict keeps the rename from being planned. -/
def prevents (c : Conflict) : Bool :=
  c.isBlocking || c.kind = .invalidIdentifier || c.kind = .missingSymbol

end Impact

/-- What the rename would do. -/
def Engine.impact (e : Engine) (r : RenameRequest) : Inquiry RenameImpact := do
  let kind := r.symbolId.kind
  let naming :=
    match Identifier.validate r.newName with
    | .ok () => []
    | .error err => [Conflict.invalidIdentifier err]
  -- A bad name does not end the inquiry: the numbers are of use all the same.
  if ← e.symbolExists r.symbolId then
    let noOp := r.oldName = r.newName
    let occurrences ← e.occurrencesOf r.symbolId
    let found ← ExceptT.lift (e.detectConflicts r.symbolId r.newName occurrences)
    let dependents ←
      Inquiry.ask (.dependents [r.symbolId]) (e.analyzer.dependents [r.symbolId]) []
    let conflicts := naming ++ found
    let summary := Impact.summarize occurrences dependents
    let valid := !noOp && !conflicts.any Impact.prevents
    return {
      symbolId := r.symbolId
      oldName := r.oldName
      newName := r.newName
      kind
      valid
      conflicts
      summary
      warnings :=
        (if noOp then [s!"'{r.newName}' is already the current name"] else []) ++
          Impact.advisories kind summary
      hotReload := if valid then some (.ofKind kind) else none }
  else
    return {
      symbolId := r.symbolId
      oldName := r.oldName
      newName := r.newName
      kind
      valid := false
      conflicts := naming ++ [.missingSymbol r.symbolId]
      summary := {}
      warnings := []
      hotReload := none }

end HotRename
