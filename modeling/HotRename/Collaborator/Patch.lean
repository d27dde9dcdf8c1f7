import HotRename.Collaborator.Answer
import HotRename.Digest.Sha256
import HotRename.Symbol.Id

/-!
# Patches

A patch describes the new state of a script for a running program. A transpiler makes one from the
text of the script; without a transpiler the patch carries the text only.
-/

namespace HotRename

/-- A script as it is handed to the transpiler. -/
structure ScriptSource where
  sourceText : String
  symbolId : SymbolId
  deriving DecidableEq, Repr

/-- What a running program needs to take over a script. -/
structure PatchRecord where
  kind : String
  id : SymbolId
  sourceText : String
  /-- The version of the text the patch was made from. -/
  version : Nat
  /-- What the transpiler made of it. -/
  payload : Option Json
  deriving Repr

namespace PatchRecord

/-- The patch that carries the text of a script only. -/
def minimal (id : SymbolId) (sourceText : String) : PatchRecord :=
  { kind := "script", id, sourceText, version := Digest.version sourceText, payload := none }

/-- Writes a patch. -/
def toJson (p : PatchRecord) : Json :=
  .record
    ([("kind", .text p.kind), ("id", p.id.toJson), ("source_text", .text p.sourceText),
        ("version", .nat p.version)] ++
      Json.optional "payload" (fun j => j) p.payload)

/-- Reads a patch. -/
def ofJson? (j : Json) : Option PatchRecord :=
  match j.fields ["kind", "id", "source_text", "version", "payload"] with
  | some [kind, id, sourceText, version, payload] => do
    return {
      kind := ← Json.required Json.asText kind
      id := ← Json.required SymbolId.ofJson? id
      sourceText := ← Json.required Json.asText sourceText
      version := ← Json.required Json.asNat version
      payload := ← Json.optionalField Json.normal? payload }
  | _ => none

end PatchRecord

/-- Makes patches from scripts. -/
structure Transpiler where
  transpile : ScriptSource → Answer PatchRecord

/-- The transpiler that cannot make any. -/
def Transpiler.unavailable : Transpiler :=
  ⟨fun _ => .error (.unsupported .transpile)⟩

end HotRename
