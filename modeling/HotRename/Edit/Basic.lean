import HotRename.Symbol.Occurrence
import HotRename.Path.Basic

/-!
# Text edits

A text edit replaces the bytes of a span of one file by a new text. The order in which the edits
of a file are carried out is from its tail to its head: by descending start and, for edits with
one start, by descending end, so that a replacement comes before an insertion in front of it.
-/

namespace HotRename

/-- The bytes from `start` up to `stop`. -/
structure Span where
  start : Nat
  stop : Nat
  deriving DecidableEq, Repr

namespace Span

/-- The span in words. -/
def text (s : Span) : String :=
  s!"{s.start}..{s.stop}"

/-- Writes a span. -/
def toJson (s : Span) : Json :=
  .record [("start", .nat s.start), ("end", .nat s.stop)]

/-- Reads a span. -/
def ofJson? (j : Json) : Option Span :=
  match j.fields ["start", "end"] with
  | some [start, stop] => do
    return { start := ← Json.required Json.asNat start, stop := ← Json.required Json.asNat stop }
  | _ => none

end Span

/-- Replaces the bytes from `start` up to `stop` of a file by `newText`. -/
structure TextEdit where
  path : Path
  start : Nat
  stop : Nat
  newText : String
  deriving DecidableEq, Repr

namespace TextEdit

/-- The replaced span. -/
def span (e : TextEdit) : Span :=
  ⟨e.start, e.stop⟩

/-- `a` is carried out before `b`, or neither comes first. -/
def tailFirst (a b : TextEdit) : Bool :=
  b.start < a.start || (b.start = a.start && b.stop ≤ a.stop)

/-- The edits of one file in the order in which they are carried out. -/
def sortTailFirst (edits : List TextEdit) : List TextEdit :=
  edits.mergeSort tailFirst

/-- Writes a text edit. -/
def toJson (e : TextEdit) : Json :=
  .record
    [("path", e.path.toJson), ("start", .nat e.start), ("end", .nat e.stop),
      ("new_text", .text e.newText)]

/-- Reads a text edit. -/
def ofJson? (j : Json) : Option TextEdit :=
  match j.fields ["path", "start", "end", "new_text"] with
  | some [path, start, stop, newText] => do
    return {
      path := ← Json.required Path.ofJson? path
      start := ← Json.required Json.asNat start
      stop := ← Json.required Json.asNat stop
      newText := ← Json.required Json.asText newText }
  | _ => none

end TextEdit

/-- Why edits cannot be carried out. -/
inductive EditError where
  /-- There is nothing to do. -/
  | empty
  /-- The span ends before it starts. -/
  | invalidRange (path : Path) (span : Span)
  /-- Two spans of one file overlap. -/
  | overlap (path : Path) (first second : Span)
  /-- The span ends behind the text or splits a character of it. -/
  | outOfBounds (path : Path) (span : Span) (length : Nat)
  deriving DecidableEq, Repr

namespace EditError

/-- The error in words. -/
def message : EditError → String
  | empty => "workspace edit contains no edits"
  | invalidRange path span => s!"invalid edit range {span.text} in {path.text}"
  | overlap path first second =>
    s!"overlapping edits in {path.text}: {first.text} and {second.text}"
  | outOfBounds path span length =>
    s!"edit {span.text} does not fit {path.text} ({length} bytes)"

end EditError
end HotRename
