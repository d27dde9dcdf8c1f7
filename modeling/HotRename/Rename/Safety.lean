import HotRename.Rename.Plan
import HotRename.Symbol.Kind

/-!
# Whether a rename can be taken over by a running program

The kind of the symbol decides. Before that, a new name that is no identifier, a symbol that does
not exist and a conflict that prevents the rename make it unsafe.
-/

namespace HotRename

/-- Whether, and at what price, a running program can take over a rename. -/
structure Safety where
  safe : Bool
  reason : String
  requiresRestart : Bool := false
  requiresInstanceReinit : Bool := false
  /-- Recompiling the dependents makes the rename safe. -/
  canAutoFix : Bool := false
  suggestions : List String := []
  deriving DecidableEq, Repr

namespace Safety

/-- The verdict on renames of a kind of symbol. -/
def ofKind : SymbolKind → Safety
  | .script => {
      safe := true
      reason := "script renames are hot-reloadable; callers are recompiled in place" }
  | .var .owned => {
      safe := true
      reason := "instance variable renames are hot-reloadable; " ++
        "live instances read the field under its new name" }
  | .var .global => {
      safe := true
      reason := "global variable renames are hot-reloadable; " ++
        "the global is rebound under its new name" }
  | .event => {
      safe := true
      reason := "event renames are hot-reloadable but existing instances keep " ++
        "the old handler binding"
      requiresInstanceReinit := true
      suggestions := ["re-create affected instances (or restart the room) after reloading"] }
  | .unknown segment => {
      safe := true
      reason := s!"no reload rule for {(SymbolKind.unknown segment).description}; " ++
        "assuming the rename is hot-reloadable"
      suggestions := ["verify the running game after reloading"] }
  -- Macros and enums are left.
  | kind => {
      safe := false
      reason := s!"{kind.description} values are inlined at compile time; " ++
        "dependents still carry the old name"
      canAutoFix := true
      suggestions := ["recompile every dependent in the hot reload cascade"] }

/-- Writes a verdict. -/
def toJson (s : Safety) : Json :=
  .record
    [("safe", .bool s.safe), ("reason", .text s.reason),
      ("requires_restart", .bool s.requiresRestart),
      ("requires_instance_reinit", .bool s.requiresInstanceReinit),
      ("can_auto_fix", .bool s.canAutoFix), ("suggestions", Json.list .text s.suggestions)]

end Safety

/-- Whether a running program can take over the rename. -/
def Engine.safety (e : Engine) (r : RenameRequest) : Inquiry Safety := do
  match Identifier.validate r.newName with
  | .error err =>
    return {
      safe := false
      reason := err.message
      suggestions := ["use letters, digits and underscores, not starting with a digit"] }
  | .ok () =>
    -- A rename that cannot be planned is unsafe, which is an answer and no error.
    unless ← e.symbolExists r.symbolId do
      return { safe := false, reason := s!"symbol {r.symbolId.text} does not exist" }
    let occurrences ← e.occurrencesOf r.symbolId
    let conflicts ← ExceptT.lift (e.detectConflicts r.symbolId r.newName occurrences)
    let blocking := conflicts.filter Conflict.isBlocking
    if blocking.isEmpty then return .ofKind r.symbolId.kind
    else
      return {
        safe := false
        reason := s!"rename has {blocking.length} blocking conflict(s)"
        suggestions := blocking.map Conflict.message }

end HotRename
