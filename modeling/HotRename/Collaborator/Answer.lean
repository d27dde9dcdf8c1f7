/-!
# Answers of collaborators

The engine asks collaborators for what it needs to know about a project. Each thing that can be
asked is a capability, which a collaborator may lack. An answer is then a value, the remark that
the capability is missing, or a failure. A missing capability is no failure: the engine puts a
permissive default in its place.
-/

namespace HotRename

/-- What a collaborator may be able to answer. -/
inductive Capability where
  | hasSymbol
  | occurrences
  | lookup
  | reservedKeywords
  | validateEdits
  | fileSymbols
  | dependents
  | symbolAtPosition
  | parse
  | transpile
  deriving DecidableEq, Repr

/-- The name of a capability in messages. -/
def Capability.name : Capability → String
  | hasSymbol => "has_symbol"
  | occurrences => "get_symbol_occurrences"
  | lookup => "lookup"
  | reservedKeywords => "get_reserved_keywords"
  | validateEdits => "validate_edits"
  | fileSymbols => "get_file_symbols"
  | dependents => "get_dependents"
  | symbolAtPosition => "get_symbol_at_position"
  | parse => "parse"
  | transpile => "transpile_script"

/-- Why a collaborator gave no value. -/
inductive CollaboratorError where
  | unsupported (capability : Capability)
  | failed (capability : Capability) (reason : String)
  deriving DecidableEq, Repr

namespace CollaboratorError

/-- The error in words. -/
def message : CollaboratorError → String
  | unsupported capability => s!"capability not provided: {capability.name}"
  | failed capability reason => s!"{capability.name} failed: {reason}"

/-- The capability is missing. -/
def isUnsupported : CollaboratorError → Bool
  | unsupported _ => true
  | failed _ _ => false

end CollaboratorError

/-- The answer of a collaborator. -/
abbrev Answer (α : Type u) := Except CollaboratorError α

namespace Answer

/-- A missing capability counts as the given answer. -/
def orDefault (default : α) : Answer α → Answer α
  | .error (.unsupported _) => .ok default
  | answer => answer

/-- The answer if the capability is there, `none` if it is missing. -/
def supported : Answer α → Answer (Option α)
  | .ok a => .ok (some a)
  | .error (.unsupported _) => .ok none
  | .error (.failed c reason) => .error (.failed c reason)

end Answer
end HotRename
