import HotRename.Collaborator.Answer
import HotRename.Edit.Workspace
import HotRename.Graph.Reach
import HotRename.Symbol.Id
import HotRename.Symbol.Occurrence

/-!
# Analyzers

An analyzer knows a project: its symbols and their occurrences, what names mean in a scope, which
symbols depend on which. Its answers are functions of what is asked. From any symbols, finitely
many others can be reached by asking for dependents again and again.
-/

namespace HotRename

/-- A symbol that depends on another, with the file that defines it where that is known. -/
structure Dependent where
  symbolId : SymbolId
  filePath : Option Path
  deriving DecidableEq, Repr

namespace Dependent

/-- Writes a dependent. -/
def toJson (d : Dependent) : Json :=
  .record (("symbol_id", d.symbolId.toJson) :: Json.optional "file_path" Path.toJson d.filePath)

/-- Reads a dependent. -/
def ofJson? (j : Json) : Option Dependent :=
  match j.fields ["symbol_id", "file_path"] with
  | some [symbolId, filePath] => do
    return {
      symbolId := ← Json.required SymbolId.ofJson? symbolId
      filePath := ← Json.optionalField Path.ofJson? filePath }
  | _ => none

end Dependent

/-- What an analyzer thinks of a proposed edit. -/
structure EditVerdict where
  valid : Bool
  errors : List String
  warnings : List String
  deriving DecidableEq, Repr

namespace EditVerdict

/-- The edit may be applied. -/
def accept : EditVerdict :=
  { valid := true, errors := [], warnings := [] }

/-- The edit may not be applied, for the given reasons. -/
def reject (errors : List String) : EditVerdict :=
  { valid := false, errors, warnings := [] }

/-- Writes a verdict. -/
def toJson (v : EditVerdict) : Json :=
  .record
    [("valid", .bool v.valid), ("errors", Json.list .text v.errors),
      ("warnings", Json.list .text v.warnings)]

/-- Reads a verdict. -/
def ofJson? (j : Json) : Option EditVerdict :=
  match j.fields ["valid", "errors", "warnings"] with
  | some [valid, errors, warnings] => do
    return {
      valid := ← Json.required Json.asBool valid
      errors := ← Json.defaulted [] (Json.asList Json.asText) errors
      warnings := ← Json.defaulted [] (Json.asList Json.asText) warnings }
  | _ => none

end EditVerdict

/-- The symbols that an answer to the question for dependents names. -/
def dependentIds (dependents : List SymbolId → Answer (List Dependent)) (id : SymbolId) :
    List SymbolId :=
  match dependents [id] with
  | .ok found => found.map Dependent.symbolId
  | .error _ => []

/-- What can be asked about a project. -/
structure Analyzer where
  /-- Whether the symbol exists. -/
  hasSymbol : SymbolId → Answer Bool
  /-- Where the symbol occurs. -/
  occurrences : SymbolId → Answer (List Occurrence)
  /-- What a name means in a scope. -/
  lookup : String → Option String → Answer (Option SymbolId)
  /-- Words that no symbol may be called by. -/
  reservedKeywords : Answer (List String)
  /-- Whether an edit may be applied. -/
  validateEdits : WorkspaceEdit → Answer EditVerdict
  /-- The symbols that a file defines. -/
  fileSymbols : Path → Answer (List SymbolId)
  /-- The symbols that depend directly on one of the given ones. -/
  dependents : List SymbolId → Answer (List Dependent)
  /-- The symbol at an offset of a file. -/
  symbolAt : Path → Nat → Answer (Option SymbolId)
  /-- Dependents lead to finitely many symbols. Cascades alone need this, since their walk would not
      end otherwise; no other operation asks for the dependents of dependents. Whatever answers
      from finite tables has it. -/
  finite : ∀ roots, FiniteReach (dependentIds dependents) roots

/-- The analyzer that has no capability. -/
def Analyzer.unavailable : Analyzer where
  hasSymbol _ := .error (.unsupported .hasSymbol)
  occurrences _ := .error (.unsupported .occurrences)
  lookup _ _ := .error (.unsupported .lookup)
  reservedKeywords := .error (.unsupported .reservedKeywords)
  validateEdits _ := .error (.unsupported .validateEdits)
  fileSymbols _ := .error (.unsupported .fileSymbols)
  dependents _ := .error (.unsupported .dependents)
  symbolAt _ _ := .error (.unsupported .symbolAtPosition)
  finite roots := .of_forall_mem roots [] fun _ _ h => by simp [dependentIds] at h

end HotRename
