import HotRename.Symbol.Id
import HotRename.Symbol.Identifier
import HotRename.Symbol.Occurrence

/-!
# Conflicts

A conflict is a reason for which a rename may be unsafe. A name that is taken in the scope of an
occurrence and a name that is reserved block the rename; the other kinds are reported only.
-/

namespace HotRename

/-- The kind of a conflict. -/
inductive ConflictKind where
  /-- The new name means another symbol in the scope of an occurrence. -/
  | shadow
  /-- The new name is a reserved word. -/
  | reserved
  /-- The new name is no identifier. -/
  | invalidIdentifier
  /-- The symbol does not exist. -/
  | missingSymbol
  /-- The analyzer failed while the rename was checked. -/
  | analysisError
  deriving DecidableEq, Repr

namespace ConflictKind

/-- A conflict of this kind prevents the rename. -/
def isBlocking : ConflictKind → Bool
  | shadow | reserved => true
  | _ => false

/-- The name of the kind in documents. -/
def name : ConflictKind → String
  | shadow => "shadow"
  | reserved => "reserved"
  | invalidIdentifier => "invalid_identifier"
  | missingSymbol => "missing_symbol"
  | analysisError => "analysis_error"

/-- Reads the name of a kind. -/
def ofJson? (j : Json) : Option ConflictKind := do
  match ← j.asCase with
  | "shadow" => some shadow
  | "reserved" => some reserved
  | "invalid_identifier" => some invalidIdentifier
  | "missing_symbol" => some missingSymbol
  | "analysis_error" => some analysisError
  | _ => none

end ConflictKind

/-- How serious a conflict is. -/
inductive Severity where
  | error
  | warning
  | info
  deriving DecidableEq, Repr

namespace Severity

/-- The name of the case in documents. -/
def name : Severity → String
  | error => "error"
  | warning => "warning"
  | info => "info"

/-- Reads the name of a case. -/
def ofJson? (j : Json) : Option Severity := do
  match ← j.asCase with
  | "error" => some error
  | "warning" => some warning
  | "info" => some info
  | _ => none

end Severity

/-- One reason for which a rename may be unsafe. -/
structure Conflict where
  kind : ConflictKind
  message : String
  severity : Option Severity
  path : Option Path
  deriving DecidableEq, Repr

namespace Conflict

/-- The new name means `existing` in the scope. -/
def shadow (newName : String) (existing : SymbolId) (scope : Option String) (path : Path) :
    Conflict where
  kind := .shadow
  message :=
    match scope with
    | some scope => s!"'{newName}' already refers to {existing.text} in scope {scope}"
    | none => s!"'{newName}' already refers to {existing.text}"
  severity := some .error
  path := some path

/-- The new name is reserved. -/
def reserved (newName : String) : Conflict where
  kind := .reserved
  message := s!"'{newName}' is a reserved word"
  severity := some .error
  path := none

/-- The new name is no identifier. -/
def invalidIdentifier (e : IdentifierError) : Conflict where
  kind := .invalidIdentifier
  message := e.message
  severity := some .error
  path := none

/-- The symbol does not exist. -/
def missingSymbol (id : SymbolId) : Conflict where
  kind := .missingSymbol
  message := s!"symbol {id.text} does not exist"
  severity := some .error
  path := none

/-- The analyzer failed. -/
def analysisError (message : String) (path : Option Path) : Conflict where
  kind := .analysisError
  message
  severity := some .warning
  path

/-- The conflict prevents the rename. -/
def isBlocking (c : Conflict) : Bool :=
  c.kind.isBlocking

/-- Writes a conflict. -/
def toJson (c : Conflict) : Json :=
  .record
    ([("type", .text c.kind.name), ("message", .text c.message)] ++
      Json.optional "severity" (fun s => .text s.name) c.severity ++
      Json.optional "path" Path.toJson c.path)

/-- Reads a conflict. -/
def ofJson? (j : Json) : Option Conflict :=
  match j.fields ["type", "message", "severity", "path"] with
  | some [kind, message, severity, path] => do
    return {
      kind := ← Json.required ConflictKind.ofJson? kind
      message := ← Json.required Json.asText message
      severity := ← Json.optionalField Severity.ofJson? severity
      path := ← Json.optionalField Path.ofJson? path }
  | _ => none

end Conflict
end HotRename
