import HotRename.Text.Character
import HotRename.Json.Decode

/-!
# Symbol identifiers

A symbol identifier is a path-like name `domain/kind/…/name`: its first segment names the domain,
its second the kind, its last is the name used in source text. An identifier always has a last
segment, so it is kept as the segments in front of the name and the name itself.
-/

namespace HotRename

/-- A symbol identifier. -/
structure SymbolId where
  /-- The segments in front of the name. -/
  outer : List String
  /-- The last segment. -/
  name : String
  deriving DecidableEq, Repr, Inhabited

/-- Why a text or a list of segments is no symbol identifier. -/
inductive SymbolIdError where
  | empty
  | emptySegment (text : String)
  deriving DecidableEq, Repr

namespace SymbolIdError

/-- The error in words. -/
def message : SymbolIdError → String
  | empty => "symbol identifier is empty"
  | emptySegment text => s!"symbol identifier '{text}' contains an empty segment"

end SymbolIdError

namespace SymbolId

/-- The segments of an identifier. -/
def segments (id : SymbolId) : List String :=
  id.outer ++ [id.name]

/-- Segments joined by the separator. -/
def joinSegments (segments : List String) : String :=
  "/".intercalate segments

/-- The identifier as text. -/
def text (id : SymbolId) : String :=
  joinSegments id.segments

instance : ToString SymbolId := ⟨text⟩

/-- The identifier with the given segments, of which there must be one and none may be empty. -/
def ofSegments (segments : List String) : Except SymbolIdError SymbolId :=
  match segments.getLast? with
  | none => .error .empty
  | some name =>
    -- That there is a last segment is known by now, so only empty ones are left to refuse.
    if segments.any String.isEmpty then .error (.emptySegment (joinSegments segments))
    else .ok { outer := segments.dropLast, name }

/-- The segments of a text. -/
def splitSegments (s : String) : List String :=
  (s.toList.splitOn '/').map String.ofList

/-- Reads an identifier. A text of blanks is no identifier. -/
def parse (s : String) : Except SymbolIdError SymbolId :=
  -- Blanks inside or around segments are kept; only a text of nothing else is refused.
  if Text.allBlank s then .error .empty else ofSegments (splitSegments s)

/-- The first segment. -/
def domain (id : SymbolId) : String :=
  id.segments.headD ""

/-- The second segment, which names the kind. -/
def kindSegment (id : SymbolId) : Option String :=
  id.segments[1]?

/-- The segments between the kind and the name. -/
def qualifiers (id : SymbolId) : List String :=
  -- Of an identifier with one or two segments nothing is left.
  id.outer.drop 2

/-- The identifier with another name in place of its own. -/
def withName (id : SymbolId) (name : String) : SymbolId :=
  { id with name }

/-- Identifiers are ordered by their segments, and segments by their bytes. -/
def cmp (a b : SymbolId) : Ordering :=
  List.compareLex compare a.segments b.segments

/-- `a` comes before `b` or is the same identifier. -/
def le (a b : SymbolId) : Bool :=
  (a.cmp b).isLE

/-- Every identifier once, in ascending order. -/
def sortDistinct (ids : List SymbolId) : List SymbolId :=
  ids.eraseDups.mergeSort le

/-- An identifier is written as its text. -/
def toJson (id : SymbolId) : Json :=
  .text id.text

/-- Reads an identifier written as text. -/
def ofJson? (j : Json) : Option SymbolId := do
  (parse (← j.asText)).toOption

end SymbolId
end HotRename
