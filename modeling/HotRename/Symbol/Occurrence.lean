import HotRename.Json.Decode
import HotRename.Path.Basic

/-!
# Occurrences

An occurrence is a span of a file where a symbol is defined or used, in byte offsets, together
with the scope it lies in where that is known.
-/

namespace HotRename

/-- A path is written as it is spelled. -/
def Path.toJson (p : Path) : Json :=
  .text p.text

/-- Reads a path. -/
def Path.ofJson? (j : Json) : Option Path :=
  j.asText.map Path.mk

/-- Whether an occurrence defines its symbol or uses it. -/
inductive OccurrenceKind where
  | definition
  | reference
  deriving DecidableEq, Repr

namespace OccurrenceKind

/-- The name of the case in documents. -/
def name : OccurrenceKind → String
  | definition => "definition"
  | reference => "reference"

/-- Reads the name of a case. -/
def ofJson? (j : Json) : Option OccurrenceKind := do
  match ← j.asCase with
  | "definition" => some definition
  | "reference" => some reference
  | _ => none

end OccurrenceKind

/-- A span of a file where a symbol occurs, from the byte `start` up to the byte `stop`. -/
structure Occurrence where
  path : Path
  start : Nat
  stop : Nat
  scope : Option String
  kind : OccurrenceKind
  deriving DecidableEq, Repr

namespace Occurrence

/-- The occurrence is where its symbol is defined. -/
def isDefinition (o : Occurrence) : Bool :=
  o.kind = .definition

/-- Number of bytes of the span; a span that ends before it starts has none. -/
def length (o : Occurrence) : Nat :=
  o.stop - o.start

/-- Writes an occurrence. -/
def toJson (o : Occurrence) : Json :=
  .record
    ([("path", o.path.toJson), ("start", .nat o.start), ("end", .nat o.stop)] ++
      Json.optional "scope_id" .text o.scope ++ [("kind", .text o.kind.name)])

/-- Reads an occurrence. -/
def ofJson? (j : Json) : Option Occurrence :=
  match j.fields ["path", "start", "end", "scope_id", "kind"] with
  | some [path, start, stop, scope, kind] => do
    return {
      path := ← Json.required Path.ofJson? path
      start := ← Json.required Json.asNat start
      stop := ← Json.required Json.asNat stop
      scope := ← Json.optionalField Json.asText scope
      kind := ← Json.required OccurrenceKind.ofJson? kind }
  | _ => none

end Occurrence
end HotRename
