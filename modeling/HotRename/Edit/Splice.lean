import HotRename.Edit.Workspace
import HotRename.Text.Offset

/-!
# Splicing edits into a text

The edits of one file are carried out from the tail of the text to its head, so that each one
leaves the offsets of those still to come where they were. All checks are made on the text as it
was before the first edit.
-/

namespace HotRename.Splice

/-- Refuses an edit with a backward range, or one that does not fit the text. -/
def checkFit (path : Path) (text : List Char) (e : TextEdit) : Except EditError Unit :=
  if e.stop < e.start then .error (.invalidRange path e.span)
  -- No boundary lies behind the end of the text, so the first of these tests decides nothing.
  else if Text.byteLength text < e.stop || !Text.isBoundary e.start text ||
      !Text.isBoundary e.stop text then
    .error (.outOfBounds path e.span (Text.byteLength text))
  else .ok ()

/-- Refuses edits of which one is refused, and gives the error of the first. -/
def checkAll (path : Path) (text : List Char) : List TextEdit → Except EditError Unit
  | [] => .ok ()
  | e :: es => do
    checkFit path text e
    checkAll path text es

/-- The text after one edit. -/
def step (text : List Char) (e : TextEdit) : List Char :=
  Text.replaceBytes text e.start e.stop e.newText.toList

/-- The text after edits that are carried out in the given order. -/
def run (text : List Char) (edits : List TextEdit) : List Char :=
  edits.foldl step text

/-- The characters of a file after its edits, in whatever order these are given. -/
def applyChars (path : Path) (text : List Char) (edits : List TextEdit) :
    Except EditError (List Char) := do
  -- The checks see the edits in the order in which they are carried out, so of two errors the one
  -- nearer to the tail is reported.
  let ordered := TextEdit.sortTailFirst edits
  checkAll path text ordered
  WorkspaceEdit.checkDisjoint path ordered
  return run text ordered

/-- The text of a file after its edits, in whatever order these are given. -/
def apply (path : Path) (text : String) (edits : List TextEdit) : Except EditError String :=
  (applyChars path text.toList edits).map String.ofList

end HotRename.Splice
