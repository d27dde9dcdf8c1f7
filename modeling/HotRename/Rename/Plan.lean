import HotRename.Rename.Engine

/-!
# Planning a rename

Two checks look for conflicts. The new name must not mean another symbol in the scope of an
occurrence; each scope is asked about once, at its first occurrence. And it must not be reserved,
by the language, by the settings or by the analyzer. A failing analyzer makes a conflict that does
not prevent the rename.
-/

namespace HotRename.Engine

/-- The conflicts in the scopes of the occurrences that are not among those checked before. -/
def shadowConflicts (e : Engine) (id : SymbolId) (newName : String) :
    (checked : List (Option String)) → List Occurrence → Asked (List Conflict)
  | _, [] => pure []
  | checked, o :: os =>
    if checked.contains o.scope then shadowConflicts e id newName checked os
    else do
      match (← Asked.ask (.lookup newName o.scope)
          (e.analyzer.lookup newName o.scope)).supported with
      -- A missing capability ends the search; the other scopes are not asked about.
      | .ok none => return []
      | .ok (some (some existing)) =>
        let rest ← shadowConflicts e id newName (o.scope :: checked) os
        -- The name may mean the symbol itself.
        if existing = id then return rest
        else return .shadow newName existing o.scope o.path :: rest
      | .ok (some none) => shadowConflicts e id newName (o.scope :: checked) os
      | .error err =>
        let rest ← shadowConflicts e id newName (o.scope :: checked) os
        return .analysisError s!"lookup of '{newName}' failed: {err.message}" (some o.path) :: rest

/-- The words reserved by the language, the settings and the analyzer, and the conflict that a
    failing analyzer makes. -/
def reservedWords (e : Engine) : Asked (ReservedWords × List Conflict) := do
  let words := ReservedWords.builtin.extend e.config.extraReservedWords
  match (← Asked.ask .reservedKeywords e.analyzer.reservedKeywords).orDefault [] with
  | .ok more => return (words.extend more, [])
  | .error err =>
    return (words, [.analysisError s!"reserved keyword query failed: {err.message}" none])

/-- The conflict of a reserved name. -/
def reservedConflicts (e : Engine) (newName : String) : Asked (List Conflict) := do
  let (words, failures) ← e.reservedWords
  return failures ++ if words.contains newName then [.reserved newName] else []

/-- Every conflict of giving the symbol the new name. -/
def detectConflicts (e : Engine) (id : SymbolId) (newName : String)
    (occurrences : List Occurrence) : Asked (List Conflict) := do
  return (← e.shadowConflicts id newName [] occurrences) ++ (← e.reservedConflicts newName)

/-- The edit that puts the new name in the place of every occurrence. -/
def renameEdit (newName : String) (occurrences : List Occurrence) : WorkspaceEdit :=
  ⟨occurrences.map fun o =>
    { path := o.path, start := o.start, stop := o.stop, newText := newName }⟩

/-- Plans a rename. -/
def plan (e : Engine) (r : RenameRequest) : Inquiry RenamePlan := do
  -- A name that is no identifier is refused before anything is asked.
  Inquiry.ofExcept .invalidIdentifier (Identifier.validate r.newName)
  unless ← e.symbolExists r.symbolId do
    throw (.symbolNotFound r.symbolId)
  if r.newName = r.oldName then
    throw (.noOpRename r.symbolId r.newName)
  let occurrences ← e.occurrencesOf r.symbolId
  let conflicts ← ExceptT.lift (e.detectConflicts r.symbolId r.newName occurrences)
  -- The error lists all conflicts, also those that prevent nothing.
  if conflicts.any Conflict.isBlocking then
    throw (.conflicts conflicts)
  return {
    symbolId := r.symbolId
    oldName := r.oldName
    newName := r.newName
    edit := renameEdit r.newName occurrences
    notices := conflicts }

end HotRename.Engine
