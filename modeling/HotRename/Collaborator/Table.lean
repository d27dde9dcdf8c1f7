import HotRename.Collaborator.Asked
import HotRename.Path.Basic

/-!
# Collaborators that answer from tables

An analyzer, a parser and a transpiler whose answers are laid down beforehand. A capability is
missing until a table for it is given, and a capability that is declared as failing fails whether
or not there is a table.
-/

namespace HotRename

/-- The answers of an analyzer. -/
structure AnalyzerTables where
  symbols : Option (List SymbolId) := none
  occurrences : Option (List (SymbolId × List Occurrence)) := none
  bindings : Option (List ((String × Option String) × SymbolId)) := none
  keywords : Option (List String) := none
  verdict : Option EditVerdict := none
  fileSymbols : Option (List (Path × List SymbolId)) := none
  /-- Each row is a symbol and one of its dependents. -/
  dependents : Option (List (SymbolId × Dependent)) := none
  positions : Option (List ((Path × Nat) × SymbolId)) := none
  failing : List Capability := []

namespace AnalyzerTables

/-- Declares a symbol. -/
def withSymbol (t : AnalyzerTables) (id : SymbolId) : AnalyzerTables :=
  { t with symbols := some (t.symbols.getD [] ++ [id]) }

/-- Declares a symbol with its occurrences, which replace those given before. -/
def withOccurrences (t : AnalyzerTables) (id : SymbolId) (found : List Occurrence) :
    AnalyzerTables :=
  { t.withSymbol id with occurrences := some ((id, found) :: t.occurrences.getD []) }

/-- What a table says, unless the capability fails or there is no table. -/
def answer (t : AnalyzerTables) (c : Capability) (table : Option α) (f : α → β) : Answer β :=
  if c ∈ t.failing then .error (.failed c "stub failure")
  else
    match table with
    | some table => .ok (f table)
    | none => .error (.unsupported c)

/-- The dependents of the given symbols, in the order of the symbols and then of the rows. -/
def dependentsOf (rows : List (SymbolId × Dependent)) (ids : List SymbolId) : List Dependent :=
  ids.flatMap fun id => (rows.filter fun row => row.1 = id).map Prod.snd

/-- The answer to the question for dependents. -/
def dependentsAnswer (t : AnalyzerTables) (ids : List SymbolId) : Answer (List Dependent) :=
  t.answer .dependents t.dependents fun rows => dependentsOf rows ids

/-- The rows of a table lead to finitely many symbols. -/
theorem finite (t : AnalyzerTables) (roots : List SymbolId) :
    FiniteReach (dependentIds t.dependentsAnswer) roots := by
  -- Whatever is asked, a dependent comes from a row, and the rows are finitely many.
  refine .of_forall_mem roots ((t.dependents.getD []).map fun row => row.2.symbolId) ?_
  intro a b hb
  unfold dependentIds dependentsAnswer answer at hb
  -- A missing capability and a failing one give no dependents.
  split at hb
  · next found hfound =>
    split at hfound
    · cases hfound
    · split at hfound
      · next rows hrows =>
        simp only [Except.ok.injEq] at hfound
        subst hfound
        simp only [dependentsOf, List.flatMap_cons, List.flatMap_nil, List.append_nil,
          List.map_map, List.mem_map, List.mem_filter] at hb
        obtain ⟨row, ⟨hrow, _⟩, rfl⟩ := hb
        simp only [hrows, Option.getD_some]
        exact List.mem_map.mpr ⟨row, hrow, rfl⟩
      · cases hfound
  · cases hb

/-- The analyzer with the given answers. -/
def analyzer (t : AnalyzerTables) : Analyzer where
  hasSymbol id := t.answer .hasSymbol t.symbols fun ids => ids.contains id
  -- The rows given last count. Occurrences are added at the front of their table, all else at the
  -- end.
  occurrences id := t.answer .occurrences t.occurrences fun rows => (rows.lookup id).getD []
  lookup name scope := t.answer .lookup t.bindings fun rows =>
    (rows.reverse.lookup (name, scope))
  reservedKeywords := t.answer .reservedKeywords t.keywords id
  validateEdits _ := t.answer .validateEdits t.verdict id
  fileSymbols path := t.answer .fileSymbols t.fileSymbols fun rows =>
    (Path.find? path rows.reverse).getD []
  dependents := t.dependentsAnswer
  symbolAt path offset := t.answer .symbolAtPosition t.positions fun rows =>
    (rows.reverse.find? fun row => row.1.2 = offset && path.same row.1.1).map Prod.snd
  finite := t.finite

end AnalyzerTables

/-- The answers of a parser. -/
structure ParserTables where
  trees : List (Path × SyntaxNode)
  /-- The files that cannot be parsed. -/
  broken : List Path

/-- The parser with the given answers. Files that are not listed have an empty tree. -/
def ParserTables.parser (t : ParserTables) : Parser where
  parse path :=
    if t.broken.any path.same then .error (.failed .parse "unexpected token")
    else .ok ((Path.find? path t.trees.reverse).getD .blank)

/-- The transpiler that marks each script with a comment. -/
def Transpiler.marking : Transpiler where
  transpile source := .ok {
    PatchRecord.minimal source.symbolId source.sourceText with
    kind := "transpiled"
    payload := some (.record [("js", .text s!"/* {source.symbolId.text} */")]) }

/-- The transpiler that fails on every script. -/
def Transpiler.failing : Transpiler where
  transpile _ := .error (.failed .transpile "stub failure")

end HotRename
