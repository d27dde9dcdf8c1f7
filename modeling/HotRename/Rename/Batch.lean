import HotRename.Graph.Cycles
import HotRename.Rename.Plan

/-!
# Planning several renames at once

Checks of the batch as a whole come first and ask nothing: every new name is an identifier, no
symbol is renamed twice, no two new names are equal, and no chain of renames leads back to its
start. Then each rename is planned, and the edits of all plans together must not overlap.
-/

namespace HotRename

namespace Batch

/-- Refuses a batch with a new name that is no identifier. -/
def checkNames : List RenameRequest → Except RenameError Unit
  | [] => .ok ()
  | r :: rs => do
    (Identifier.validate r.newName).mapError .invalidIdentifier
    checkNames rs

/-- Refuses a batch that renames a symbol twice. `seen` holds the symbols of the requests before. -/
def checkSources : (seen : List SymbolId) → List RenameRequest → Except RenameError Unit
  | _, [] => .ok ()
  | seen, r :: rs =>
    if r.symbolId ∈ seen then
      .error (.invalidInput s!"{r.symbolId.text} is renamed more than once")
    else checkSources (r.symbolId :: seen) rs

/-- The symbols that get the given name. -/
def symbolsNamed (renames : List RenameRequest) (name : String) : List SymbolId :=
  (renames.filter fun r => r.newName = name).map RenameRequest.symbolId

/-- Refuses a batch that gives one name twice. -/
def checkTargets (renames : List RenameRequest) : Except RenameError Unit :=
  -- The name that is met first is reported, with all symbols that would get it.
  match renames.find? fun r => 1 < (symbolsNamed renames r.newName).length with
  | some r => .error (.batchCollision r.newName (symbolsNamed renames r.newName))
  | none => .ok ()

/-- The chains of renames that lead back to their start. A rename leads from its symbol to the
    identifier that the symbol gets. -/
def chainCycles (renames : List RenameRequest) : List (List SymbolId) :=
  -- Every symbol has one successor, so two chains that lead back to their starts have no symbol in
  -- common.
  tableCycles (renames.map fun r => (r.symbolId, [r.targetId])) (renames.map RenameRequest.symbolId)

/-- Refuses a batch with a chain that leads back to its start. -/
def checkChains (renames : List RenameRequest) : Except RenameError Unit :=
  match chainCycles renames with
  | [] => .ok ()
  | cycle :: _ => .error (.circularRename cycle)

/-- The checks of a batch as a whole. -/
def check (renames : List RenameRequest) : Except RenameError Unit := do
  if renames.isEmpty then
    throw (.invalidInput "batch contains no renames")
  checkNames renames
  checkSources [] renames
  checkTargets renames
  checkChains renames

/-- The edits of all plans in their order. -/
def mergedEdit (plans : List RenamePlan) : WorkspaceEdit :=
  ⟨plans.flatMap fun p => p.edit.edits⟩

end Batch

namespace Engine

/-- Plans renames one after the other. -/
def planEach (e : Engine) : List RenameRequest → Inquiry (List RenamePlan)
  | [] => return []
  | r :: rs => do
    let p ← e.plan r
    let ps ← planEach e rs
    return p :: ps

/-- Plans several renames as one edit. -/
def planBatch (e : Engine) (renames : List RenameRequest) : Inquiry BatchPlan := do
  Inquiry.ofExcept id (Batch.check renames)
  let plans ← e.planEach renames
  let edit := Batch.mergedEdit plans
  -- Symbols without occurrences make no edits, which is no mistake of a plan.
  unless edit.isEmpty do
    Inquiry.ofExcept .edit edit.validate
  return { plans, edit }

end Engine
end HotRename
