import HotRename.Edit.Basic

/-!
# Workspace edits

A workspace edit is a bag of text edits over any number of files. Edits are added without any
check. The view by file groups them under the first spelling of each path and puts every group in
the order in which it is carried out; `validate` accepts the edits whose groups are free of
overlaps.
-/

namespace HotRename

/-- Text edits over any number of files, in the order in which they were added. -/
structure WorkspaceEdit where
  edits : List TextEdit
  deriving DecidableEq, Repr, Inhabited

namespace WorkspaceEdit

/-- No edits. -/
def empty : WorkspaceEdit := ⟨[]⟩

/-- The edits with one more at the end. -/
def push (w : WorkspaceEdit) (e : TextEdit) : WorkspaceEdit :=
  ⟨w.edits ++ [e]⟩

/-- The edits followed by those of another workspace edit. -/
def append (w v : WorkspaceEdit) : WorkspaceEdit :=
  ⟨w.edits ++ v.edits⟩

instance : Append WorkspaceEdit := ⟨append⟩

/-- Number of edits. -/
def size (w : WorkspaceEdit) : Nat :=
  w.edits.length

/-- There are no edits. -/
def isEmpty (w : WorkspaceEdit) : Bool :=
  w.edits.isEmpty

/-- The edited files. -/
def files (w : WorkspaceEdit) : List Path :=
  Path.set (w.edits.map TextEdit.path)

/-- Some edit is to the given file. -/
def touches (w : WorkspaceEdit) (p : Path) : Bool :=
  w.edits.any fun e => p.same e.path

/-- The edits to the given file. -/
def editsFor (w : WorkspaceEdit) (p : Path) : List TextEdit :=
  w.edits.filter fun e => p.same e.path

/-- The edited files under the spelling met first. -/
def groupKeys (w : WorkspaceEdit) : List Path :=
  Path.keys (w.edits.map TextEdit.path)

/-- The edited files with the number of edits to each. -/
def counts (w : WorkspaceEdit) : List (Path × Nat) :=
  w.groupKeys.map fun p => (p, (w.editsFor p).length)

/-- The edited files with the edits to each, in the order in which they are carried out. -/
def groups (w : WorkspaceEdit) : List (Path × List TextEdit) :=
  w.groupKeys.map fun p => (p, TextEdit.sortTailFirst (w.editsFor p))

/-- Refuses edits of one file of which one ends behind the start of the one carried out just
    before it. -/
def checkDisjoint (path : Path) : List TextEdit → Except EditError Unit
  | later :: earlier :: rest =>
    -- Spans that only touch do not overlap. Comparing neighbours is enough, as the starts are
    -- sorted.
    if later.start < earlier.stop then .error (.overlap path earlier.span later.span)
    else checkDisjoint path (earlier :: rest)
  | _ => .ok ()

/-- Refuses groups of which one has overlaps. -/
def checkGroups : List (Path × List TextEdit) → Except EditError Unit
  | [] => .ok ()
  | (path, edits) :: rest => do
    checkDisjoint path edits
    checkGroups rest

/-- Accepts edits, of which there must be one, that are free of backward ranges and overlaps. -/
def validate (w : WorkspaceEdit) : Except EditError Unit :=
  if w.isEmpty then .error .empty
  else
    -- Backward ranges are looked for in the order of the edits, overlaps in that of the files.
    match w.edits.find? fun e => e.stop < e.start with
    | some bad => .error (.invalidRange bad.path bad.span)
    | none => checkGroups w.groups

/-- Writes a workspace edit. -/
def toJson (w : WorkspaceEdit) : Json :=
  .record [("edits", Json.list TextEdit.toJson w.edits)]

/-- Reads a workspace edit. -/
def ofJson? (j : Json) : Option WorkspaceEdit :=
  match j.fields ["edits"] with
  | some [edits] => do return ⟨← Json.required (Json.asList TextEdit.ofJson?) edits⟩
  | _ => none

end WorkspaceEdit
end HotRename
